import FlowBlaze.Sw.Packet
import Mathlib.Data.List.Induction
import Mathlib.Tactic.Common
/-!
# Where header pointers point

The parser takes one of seven branches, and each sets some of the header
pointers, resets some and leaves the others alone. What it leaves alone
is what an earlier packet left there. This file tells the branches apart
and says when, after a run of packets, no pointer is stale: exactly when
the pointers the last branch leaves alone were `NULL` before, and what it
sets is there in the packet.
-/

namespace FlowBlaze

namespace Sw

/-! ## The branches of the parser -/

/-- The branches of `parse_pkt_header`. The last three of UDP are those of
a GTP packet, by what is inside. -/
inductive Branch
  | tcp
  | icmp
  | udp
  | gtpTcp
  | gtpUdp
  | gtpOther
  | other
deriving DecidableEq, Repr

/-- The branch taken, which is read off the packet. -/
def Packet.branch (p : Packet) : Option Branch := do
  let proto ← p.mbuf.data[23]?
  if proto = ipprotoTcp then some .tcp
  else if proto = ipv4IcmpProto then some .icmp
  else if proto = ipprotoUdp then
    let dport ← be16ptr2h fun i => p.mbuf.data[36 + i]?
    if dport.setWidth 64 = gtpPort then
      let inProto ← p.mbuf.data[59]?
      if inProto = ipprotoTcp then some .gtpTcp
      else if inProto = ipprotoUdp then some .gtpUdp
      else some .gtpOther
    else some .udp
  else some .other

/-- What a branch does to the pointer of a header past IPv4: nothing, or
reset it, or set it to a place of the packet's data. -/
def Branch.sets : Branch → HdrField → Option (Option ℕ)
  | .tcp, .tcpSport => some (some 34)
  | .tcp, .tcpDport => some (some 36)
  | .tcp, .udpSport | .tcp, .udpDport => some none
  | .icmp, .icmpType => some (some 34)
  | .icmp, .icmpCode => some (some 35)
  | .icmp, .icmpId => some (some 38)
  | .icmp, .icmpSeq => some (some 40)
  | .icmp, .icmpPayload => some (some 42)
  | .icmp, .udpSport | .icmp, .udpDport | .icmp, .tcpSport | .icmp, .tcpDport => some none
  | .tcp, _ | .icmp, _ | .other, _ => none
  | _, .udpSport => some (some 34)
  | _, .udpDport => some (some 36)
  | _, .tcpSport | _, .tcpDport => some none
  | .udp, .gtpTeid | .udp, .innerIpv4Dst | .udp, .innerIpv4Src | .udp, .innerIpv4Proto => some none
  | .udp, .innerTcpSport | .udp, .innerTcpDport | .udp, .innerUdpSport
  | .udp, .innerUdpDport => some none
  | _, .gtpTeid => some (some 46)
  | _, .innerIpv4Dst => some (some 30)
  | _, .innerIpv4Src => some (some 26)
  | _, .innerIpv4Proto => some (some 23)
  | .gtpTcp, .innerTcpSport => some (some 70)
  | .gtpTcp, .innerTcpDport => some (some 72)
  | .gtpTcp, .innerUdpSport | .gtpTcp, .innerUdpDport => some none
  | .gtpUdp, .innerUdpSport => some (some 70)
  | .gtpUdp, .innerUdpDport => some (some 72)
  | .gtpUdp, .innerTcpSport | .gtpUdp, .innerTcpDport => some none
  | _, _ => none

/-- What the parser does to a pointer. -/
def Packet.assigned (p : Packet) (b : Branch) : HdrField → Option (Option Ptr)
  | .xfsmInPort => some (some .inPort)
  | .xfsmMetadata0 => some (if p.mbuf.userdata ≠ 0 then some (.userdata p.number 0) else none)
  | .xfsmMetadata1 => some (if p.mbuf.userdata ≠ 0 then some (.userdata p.number 4) else none)
  | .xfsmTimestamp => some (some (.timestamp p.number))
  | .srcMac => some (some (.data p.number 6))
  | .dstMac => some (some (.data p.number 0))
  | .ethType => some (some (.data p.number 12))
  | .ipv4Dst => some (some (.data p.number 30))
  | .ipv4Src => some (some (.data p.number 26))
  | .ipv4Proto => some (some (.data p.number 23))
  | .ipv4Tos => some (some (.data p.number 15))
  | f => (b.sets f).map fun off => off.map (.data p.number)

/-- The pointers after a branch. -/
def Packet.overlay (p : Packet) (fields : PktFields) (b : Branch) : PktFields :=
  fun f => (p.assigned b f).getD (fields f)

section Parse

variable (M : Mem) (fields : PktFields)

theorem byte_data (off i : ℕ) :
    M.byte (.data M.packet.number off) i = M.packet.mbuf.data[off + i]? := by
  exact if_pos rfl

/-- The destination port, read through the pointer just set. -/
theorem getHdrValue_udpDport (h : fields .udpDport = some (.data M.packet.number 36)) :
    getHdrValue M fields .udpDport =
      (be16ptr2h fun i => M.packet.mbuf.data[36 + i]?).map fun dport =>
        some (dport.setWidth 64) := by
  unfold getHdrValue
  rw [h]
  unfold readField
  simp only [HdrField.len, funext (byte_data M 36), Option.map_map, Function.comp_def]

/-- The metadata pointers are set or reset together. -/
theorem set_metadata (n : ℕ) (userdata : Word64) :
    (if userdata ≠ 0 then
      (fields.set .xfsmMetadata0 (some (.userdata n 0))).set .xfsmMetadata1 (some (.userdata n 4))
      else (fields.set .xfsmMetadata0 none).set .xfsmMetadata1 none) =
      (fields.set .xfsmMetadata0 (if userdata ≠ 0 then some (.userdata n 0) else none)).set
        .xfsmMetadata1 (if userdata ≠ 0 then some (.userdata n 4) else none) := by
  split <;> rfl

/-- The branches of a UDP packet. -/
theorem branch_of_udp {p : Packet} {b : Branch} (hproto : p.mbuf.data[23]? = some ipprotoUdp)
    (hb : p.branch = some b) : b = .udp ∨ b = .gtpTcp ∨ b = .gtpUdp ∨ b = .gtpOther := by
  unfold Packet.branch at hb
  rw [hproto, Option.bind_eq_bind, Option.bind_some, if_neg (by decide), if_neg (by decide),
    if_pos rfl] at hb
  obtain ⟨dport, -, hb⟩ := Option.bind_eq_some_iff.mp hb
  split at hb
  · obtain ⟨inProto, -, hb⟩ := Option.bind_eq_some_iff.mp hb
    split at hb
    · cases hb
      exact .inr (.inl rfl)
    · split at hb
      · cases hb
        exact .inr (.inr (.inl rfl))
      · cases hb
        exact .inr (.inr (.inr rfl))
  · cases hb
    exact .inl rfl

/-- The part of a UDP packet past the ports. -/
theorem parseGtp_eq (h : fields .udpDport = some (.data M.packet.number 36))
    (hproto : M.packet.mbuf.data[23]? = some ipprotoUdp) :
    (parseGtp M 0 14 34 fields).map (·.set .xfsmTimestamp (some (.timestamp M.packet.number))) =
      (M.packet.branch).map fun b f =>
        if f = .xfsmTimestamp then some (.timestamp M.packet.number)
        else if f = .udpSport ∨ f = .udpDport ∨ f = .tcpSport ∨ f = .tcpDport then fields f
        else ((b.sets f).map fun off => off.map (Ptr.data M.packet.number)).getD (fields f) := by
  unfold parseGtp Packet.branch
  rw [getHdrValue_udpDport M fields h, hproto]
  simp only [byte_data, gtpHeaderSize, Option.bind_eq_bind, Option.bind_some]
  rw [if_neg (by decide), if_neg (by decide), if_pos trivial]
  cases be16ptr2h fun i => M.packet.mbuf.data[36 + i]? with
  | none => rfl
  | some dport =>
    simp only [Option.map_some, Option.bind_some, Option.getD_some]
    by_cases hdport : dport.setWidth 64 = gtpPort
    · rw [if_pos hdport, if_pos hdport]
      cases M.packet.mbuf.data[0 + (34 + 8 + 8 + 9)]? with
      | none => rfl
      | some inProto =>
        simp only [Option.bind_some]
        by_cases htcp : inProto = ipprotoTcp
        · rw [if_pos htcp, if_pos htcp]
          exact congrArg some (funext fun f => by cases f <;> rfl)
        · rw [if_neg htcp, if_neg htcp]
          by_cases hudp : inProto = ipprotoUdp
          · rw [if_pos hudp, if_pos hudp]
            exact congrArg some (funext fun f => by cases f <;> rfl)
          · rw [if_neg hudp, if_neg hudp]
            exact congrArg some (funext fun f => by cases f <;> rfl)
    · rw [if_neg hdport, if_neg hdport]
      exact congrArg some (funext fun f => by cases f <;> rfl)

/-- **What the parser does**, by branch. -/
theorem parsePktHeader_eq :
    parsePktHeader M fields = (M.packet.branch).map (M.packet.overlay fields) := by
  unfold parsePktHeader
  simp only [byte_data, etherHdrLen, set_metadata]
  cases hproto : M.packet.mbuf.data[23]? with
  | none =>
    unfold Packet.branch
    simp [hproto]
  | some proto =>
    by_cases htcp : proto = ipprotoTcp
    · have hbranch : M.packet.branch = some .tcp := by
        unfold Packet.branch
        rw [hproto]
        exact if_pos htcp
      rw [hbranch]
      rw [Option.bind_eq_bind, Option.bind_some, if_pos htcp]
      exact congrArg some (funext fun f => by cases f <;> rfl)
    · by_cases hicmp : proto = ipv4IcmpProto
      · have hbranch : M.packet.branch = some .icmp := by
          unfold Packet.branch
          rw [hproto]
          exact (if_neg htcp).trans (if_pos hicmp)
        rw [hbranch]
        rw [Option.bind_eq_bind, Option.bind_some, if_neg htcp, if_pos hicmp]
        exact congrArg some (funext fun f => by cases f <;> rfl)
      · by_cases hudp : proto = ipprotoUdp
        · rw [Option.bind_eq_bind, Option.bind_some, if_neg htcp, if_neg hicmp, if_pos hudp]
          refine (Option.map_eq_bind ..).symm.trans ((parseGtp_eq M _ rfl (hudp ▸ hproto)).trans ?_)
          refine Option.map_congr fun b hb => funext fun f => ?_
          have hudp := branch_of_udp (hudp ▸ hproto) hb
          obtain rfl | rfl | rfl | rfl := hudp <;> cases f <;> rfl
        · have hbranch : M.packet.branch = some .other := by
            unfold Packet.branch
            rw [hproto]
            exact (if_neg htcp).trans ((if_neg hicmp).trans (if_neg hudp))
          rw [hbranch]
          rw [Option.bind_eq_bind, Option.bind_some, if_neg htcp, if_neg hicmp, if_neg hudp]
          exact congrArg some (funext fun f => by cases f <;> rfl)

end Parse

/-! ## Frames -/

/-- The IPv4 header at a place of a frame, so many bytes long, of a packet
that is not a later fragment. -/
structure Ipv4At (d : List Byte) (n len : ℕ) (proto : Byte) : Prop where
  version : ∃ b, d[n]? = some b ∧ b.toNat / 16 = 4 ∧ len = 4 * (b.toNat % 16)
  legal : 20 ≤ len
  first : (∃ b, d[n + 6]? = some b ∧ b.toNat % 32 = 0) ∧ d[n + 7]? = some 0
  proto : d[n + 9]? = some proto

/-- An untagged Ethernet II frame with an IPv4 packet of that protocol,
whose own header is at a place. -/
def TransportAt (d : List Byte) (proto : Byte) (n : ℕ) : Prop :=
  d[12]? = some 8 ∧ d[13]? = some 0 ∧ ∃ len, Ipv4At d 14 len proto ∧ n = 14 + len

/-- A GTP-U header at a place, so many bytes long, without extension
headers. -/
def GtpAt (d : List Byte) (n len : ℕ) : Prop :=
  (∃ t, TransportAt d ipprotoUdp t ∧ d[t + 2]? = some 8 ∧ d[t + 3]? = some 104 ∧ n = t + 8) ∧
    ∃ b, d[n]? = some b ∧ b.toNat / 16 = 3 ∧ len = if b.toNat % 8 = 0 then 8 else 12

/-- The IPv4 packet inside a GTP-U packet. -/
def InnerAt (d : List Byte) (n len : ℕ) (proto : Byte) : Prop :=
  ∃ g glen, GtpAt d g glen ∧ d[g + 1]? = some 255 ∧ n = g + glen ∧ Ipv4At d n len proto

/-- The header fields that not every packet has a pointer for. -/
def HdrField.optional : HdrField → Bool
  | .icmpType | .icmpCode | .icmpId | .icmpSeq | .icmpPayload => true
  | .tcpSport | .tcpDport | .udpSport | .udpDport => true
  | .gtpTeid | .innerIpv4Src | .innerIpv4Dst | .innerIpv4Proto => true
  | .innerTcpSport | .innerTcpDport | .innerUdpSport | .innerUdpDport => true
  | _ => false

/-- Where the standards put an optional field. -/
def FieldAt (d : List Byte) (n : ℕ) : HdrField → Prop
  | .tcpSport => TransportAt d ipprotoTcp n
  | .tcpDport => ∃ t, TransportAt d ipprotoTcp t ∧ n = t + 2
  | .udpSport => TransportAt d ipprotoUdp n
  | .udpDport => ∃ t, TransportAt d ipprotoUdp t ∧ n = t + 2
  | .icmpType => TransportAt d ipv4IcmpProto n
  | .icmpCode => ∃ t, TransportAt d ipv4IcmpProto t ∧ n = t + 1
  | .icmpId => ∃ t, TransportAt d ipv4IcmpProto t ∧ n = t + 4
  | .icmpSeq => ∃ t, TransportAt d ipv4IcmpProto t ∧ n = t + 6
  | .icmpPayload => ∃ t, TransportAt d ipv4IcmpProto t ∧ n = t + 8
  | .gtpTeid => ∃ g glen, GtpAt d g glen ∧ n = g + 4
  | .innerIpv4Src => ∃ i len proto, InnerAt d i len proto ∧ n = i + 12
  | .innerIpv4Dst => ∃ i len proto, InnerAt d i len proto ∧ n = i + 16
  | .innerIpv4Proto => ∃ i len proto, InnerAt d i len proto ∧ n = i + 9
  | .innerTcpSport => ∃ i len, InnerAt d i len ipprotoTcp ∧ n = i + len
  | .innerTcpDport => ∃ i len, InnerAt d i len ipprotoTcp ∧ n = i + len + 2
  | .innerUdpSport => ∃ i len, InnerAt d i len ipprotoUdp ∧ n = i + len
  | .innerUdpDport => ∃ i len, InnerAt d i len ipprotoUdp ∧ n = i + len + 2
  | _ => False

/-- A packet contains an optional field. -/
def Contains (d : List Byte) (f : HdrField) : Prop :=
  ∃ n, FieldAt d n f ∧ n + f.len ≤ d.length

/-! ## Runs of packets -/

/-- The pointers of a table after a run of packets, each with the port it
came in at. Packets are numbered as they come. -/
def parseRun (ps : List (Byte × Mbuf)) : Option PktFields :=
  ps.zipIdx.foldlM (fun fields q => parsePktHeader ⟨q.1.1, q.2, q.1.2⟩ fields) PktFields.null

/-- A pointer into a packet, or to the table's `in_port`. -/
def Ptr.PointsInto (p : Packet) : Ptr → Prop
  | .inPort => True
  | .data packet off => packet = p.number ∧ off < p.mbuf.data.length
  | .userdata packet _ => packet = p.number
  | .timestamp packet => packet = p.number

/-- **No pointer is stale**: what is set points into the packet, and what
the packet does not contain is not set. -/
structure PointersFresh (p : Packet) (fields : PktFields) : Prop where
  pointsInto : ∀ f ptr, fields f = some ptr → ptr.PointsInto p
  absent : ∀ f, f.optional = true → ¬Contains p.mbuf.data f → fields f = none

/-- **What a packet must be for that**, after which the branch it takes is
read off inside its data: the pointers the branch sets lie inside, those
of optional fields are set only if the packet contains the field, and
what the branch leaves alone was `NULL`. -/
structure ParsesCleanly (fields : PktFields) (p : Packet) (b : Branch) : Prop where
  branch : p.branch = some b
  inside : ∀ f off, p.assigned b f = some (some (.data p.number off)) → off < p.mbuf.data.length
  contained : ∀ f off, b.sets f = some (some off) → Contains p.mbuf.data f
  reset : ∀ f, p.assigned b f = none → fields f = none

section Run

variable {ps : List (Byte × Mbuf)} {fields : PktFields} {p : Packet} {b : Branch} {f : HdrField}
  {ptr : Ptr}

/-- A pointer into a packet before that number. -/
def Ptr.Before (n : ℕ) : Ptr → Prop
  | .inPort => False
  | .data packet _ => packet < n
  | .userdata packet _ => packet < n
  | .timestamp packet => packet < n

theorem Ptr.Before.mono {m n : ℕ} (h : ptr.Before m) (hmn : m ≤ n) : ptr.Before n := by
  cases ptr with
  | inPort => exact h
  | _ => exact Nat.lt_of_lt_of_le h hmn

theorem Ptr.Before.not_pointsInto (h : ptr.Before p.number) : ¬ptr.PointsInto p := by
  cases ptr with
  | inPort => exact h.elim
  | data packet off => exact fun hp => Nat.ne_of_lt h hp.1
  | _ => exact fun hp => Nat.ne_of_lt h hp

theorem optional_of_sets {v : Option ℕ} (h : b.sets f = some v) : f.optional = true := by
  cases f <;> first | rfl | (cases b <;> cases h)

/-- Only optional fields are ever left alone. -/
theorem assigned_eq (h : f.optional = true) :
    p.assigned b f = (b.sets f).map fun off => off.map (.data p.number) := by
  cases f <;> first | rfl | cases h

theorem optional_of_assigned (h : p.assigned b f = none) : f.optional = true := by
  cases f <;> first | rfl | cases h

/-- A pointer set for a packet points into it, or is that of `in_port`. -/
theorem before_of_assigned (h : p.assigned b f = some (some ptr)) :
    f = .xfsmInPort ∨ ptr.Before (p.number + 1) := by
  by_cases hf : f.optional = true
  · rw [assigned_eq hf] at h
    obtain ⟨off, -, h⟩ := Option.map_eq_some_iff.mp h
    obtain ⟨n, rfl, rfl⟩ := Option.map_eq_some_iff.mp h
    exact .inr (Nat.lt_succ_self _)
  · have hlt := Nat.lt_succ_self p.number
    cases f with
    | xfsmInPort => exact .inl rfl
    | xfsmMetadata0 | xfsmMetadata1 =>
      unfold Packet.assigned at h
      simp only [Option.some.injEq] at h
      split at h
      · cases h
        exact .inr hlt
      · cases h
    | srcMac | dstMac | ethType | ipv4Dst | ipv4Src | ipv4Proto | ipv4Tos | xfsmTimestamp =>
      cases h
      exact .inr hlt
    | _ => exact absurd rfl hf

/-- Where a set pointer lies, given that it lies inside the data if it
points there. -/
theorem pointsInto_of_assigned (h : p.assigned b f = some (some ptr))
    (hinside : ∀ off, ptr = .data p.number off → off < p.mbuf.data.length) : ptr.PointsInto p := by
  by_cases hf : f.optional = true
  · rw [assigned_eq hf] at h
    obtain ⟨off, -, h⟩ := Option.map_eq_some_iff.mp h
    obtain ⟨n, rfl, rfl⟩ := Option.map_eq_some_iff.mp h
    exact ⟨rfl, hinside n rfl⟩
  · cases f with
    | xfsmMetadata0 | xfsmMetadata1 =>
      unfold Packet.assigned at h
      simp only [Option.some.injEq] at h
      split at h
      · cases h
        exact rfl
      · cases h
    | xfsmInPort =>
      cases h
      exact trivial
    | xfsmTimestamp =>
      cases h
      exact rfl
    | srcMac | dstMac | ethType | ipv4Dst | ipv4Src | ipv4Proto | ipv4Tos =>
      cases h
      exact ⟨rfl, hinside _ rfl⟩
    | _ => exact absurd rfl hf

theorem parseRun_snoc (q : Byte × Mbuf) :
    parseRun (ps ++ [q]) = (parseRun ps).bind fun fields =>
      ((⟨ps.length, q.2⟩ : Packet).branch).map ((⟨ps.length, q.2⟩ : Packet).overlay fields) := by
  unfold parseRun
  rw [List.zipIdx_append, List.foldlM_append]
  refine congrArg (Option.bind _) (funext fun fields => ?_)
  rw [Nat.zero_add]
  exact (bind_pure _).trans (parsePktHeader_eq _ fields)

/-- **After a run**, every pointer but that of `in_port` points into a
packet of the run. -/
theorem before_of_parseRun (h : parseRun ps = some fields) (hf : fields f = some ptr) :
    f = .xfsmInPort ∨ ptr.Before ps.length := by
  induction ps using List.reverseRecOn generalizing fields with
  | nil =>
    cases h
    cases hf
  | append_singleton ps q ih =>
    rw [parseRun_snoc] at h
    obtain ⟨before, hbefore, h⟩ := Option.bind_eq_some_iff.mp h
    obtain ⟨b, -, rfl⟩ := Option.map_eq_some_iff.mp h
    rw [List.length_append, List.length_singleton]
    unfold Packet.overlay at hf
    cases hassigned : (⟨ps.length, q.2⟩ : Packet).assigned b f with
    | none =>
      rw [hassigned] at hf
      exact (ih hbefore hf).imp_right fun hptr => hptr.mono (Nat.le_succ _)
    | some v =>
      rw [hassigned] at hf
      obtain rfl : v = some ptr := hf
      exact before_of_assigned hassigned

/-- **When no pointer is stale.** After any run of packets, with one more
at the end. -/
theorem pointersFresh_iff (ps : List (Byte × Mbuf)) (q : Byte × Mbuf) :
    (∃ fields, parseRun (ps ++ [q]) = some fields ∧ PointersFresh ⟨ps.length, q.2⟩ fields) ↔
      ∃ before b, parseRun ps = some before ∧ ParsesCleanly before ⟨ps.length, q.2⟩ b := by
  rw [parseRun_snoc]
  constructor
  · rintro ⟨fields, hrun, hfresh⟩
    obtain ⟨before, hbefore, hrun⟩ := Option.bind_eq_some_iff.mp hrun
    obtain ⟨b, hb, rfl⟩ := Option.map_eq_some_iff.mp hrun
    refine ⟨before, b, hbefore, hb, ?_, ?_, ?_⟩
    · intro f off hf
      have hptr : (⟨ps.length, q.2⟩ : Packet).overlay before b f = some (.data ps.length off) := by
        unfold Packet.overlay
        rw [hf]
        rfl
      exact (hfresh.pointsInto f _ hptr).2
    · intro f off hf
      by_contra hcontains
      have hnull := hfresh.absent f (optional_of_sets hf) hcontains
      unfold Packet.overlay at hnull
      rw [assigned_eq (optional_of_sets hf), hf] at hnull
      cases hnull
    · intro f hf
      by_contra hne
      obtain ⟨ptr, hptr⟩ := Option.ne_none_iff_exists'.mp hne
      have hinto : ptr.PointsInto ⟨ps.length, q.2⟩ := by
        refine hfresh.pointsInto f ptr ?_
        unfold Packet.overlay
        rw [hf]
        exact hptr
      rcases before_of_parseRun hbefore hptr with rfl | hptr
      · cases hf
      · exact Ptr.Before.not_pointsInto (p := ⟨ps.length, q.2⟩) hptr hinto
  · rintro ⟨before, b, hbefore, hclean⟩
    refine ⟨(⟨ps.length, q.2⟩ : Packet).overlay before b, ?_, ?_, ?_⟩
    · rw [hbefore, Option.bind_some, hclean.branch]
      rfl
    · intro f ptr hf
      unfold Packet.overlay at hf
      cases hassigned : (⟨ps.length, q.2⟩ : Packet).assigned b f with
      | none =>
        rw [hassigned, Option.getD_none, hclean.reset f hassigned] at hf
        cases hf
      | some v =>
        rw [hassigned] at hf
        obtain rfl : v = some ptr := hf
        refine pointsInto_of_assigned hassigned ?_
        rintro off rfl
        exact hclean.inside f off hassigned
    · intro f hf hcontains
      unfold Packet.overlay
      cases hassigned : (⟨ps.length, q.2⟩ : Packet).assigned b f with
      | none => exact hclean.reset f hassigned
      | some v =>
        rw [assigned_eq hf] at hassigned
        obtain ⟨off, hoff, rfl⟩ := Option.map_eq_some_iff.mp hassigned
        cases off with
        | none => rfl
        | some n => exact absurd (hclean.contained f n hoff) hcontains

end Run

/-! ## Two packets -/

/-- An Ethernet II frame with an IPv4 packet of that protocol. -/
def ipv4Frame (proto : Byte) (payload : List Byte) : List Byte :=
  List.replicate 12 0 ++ [8, 0, 0x45, 0, 0, 40, 0, 0, 0, 0, 64, proto, 0, 0] ++
    List.replicate 8 1 ++ payload

/-- **A TCP packet after an ICMP packet** leaves the ICMP pointers in the
first packet. -/
theorem not_pointersFresh :
    ¬∃ fields, parseRun [(1, ⟨ipv4Frame ipv4IcmpProto (List.replicate 20 0), 0, 0⟩),
        (1, ⟨ipv4Frame ipprotoTcp (List.replicate 20 0), 0, 0⟩)] = some fields ∧
      PointersFresh ⟨1, ⟨ipv4Frame ipprotoTcp (List.replicate 20 0), 0, 0⟩⟩ fields := by
  rintro ⟨fields, hrun, hfresh⟩
  have hstale : fields .icmpType = some (.data 0 34) := by
    cases hrun
    rfl
  exact absurd (hfresh.pointsInto _ _ hstale).1 (by decide)

end Sw

end FlowBlaze
