import FlowBlaze.Sw.FieldBytes
/-!
# The parser and the end of the packet

`parse_pkt_header` never looks at the length of a packet. It reads the
protocol, for UDP the destination port, and in a GTP packet the protocol
inside, and points at the fields of the headers it takes to be there.
What it leaves alone still points where an earlier packet was.
-/

namespace FlowBlaze

namespace Sw

/-- The fields of headers, which lie in the packet's data. -/
def HdrField.inData : HdrField → Bool
  | .xfsmInPort | .xfsmMetadata0 | .xfsmMetadata1 | .xfsmTimestamp => false
  | _ => true

/-- A pointer designates so many bytes inside the data of a packet. -/
def Ptr.Designates (p : Packet) (len : ℕ) (ptr : Ptr) : Prop :=
  ∃ off, ptr = .data p.number off ∧ off + len ≤ p.mbuf.data.length

/-- **Parsing stays inside the packet**: every byte that is read is there,
and every pointer that is left for a header field designates bytes of
this packet. -/
def ParsesInside (M : Mem) (before : PktFields) : Prop :=
  ∃ fields, parsePktHeader M before = some fields ∧
    ∀ f, f.inData = true → ∀ ptr, fields f = some ptr → ptr.Designates M.packet f.len

/-- The end of the furthest field that a branch points at. -/
def Branch.reach : Branch → ℕ
  | .other => 34
  | .tcp | .udp => 38
  | .icmp => 46
  | .gtpOther => 50
  | .gtpTcp | .gtpUdp => 74

/-- **What keeps parsing inside**: the branch is read off inside the packet,
the packet goes on to the end of the furthest field that is pointed at,
and what the branch leaves alone was `NULL`. -/
structure ReachesFields (before : PktFields) (p : Packet) (b : Branch) : Prop where
  branch : p.branch = some b
  reach : b.reach ≤ p.mbuf.data.length
  reset : ∀ f, p.assigned b f = none → before f = none

section Bounds

variable {p : Packet} {b : Branch} {f : HdrField} {ptr : Ptr} {before : PktFields} {M : Mem}

/-- A pointer that a branch sets lies before its end. -/
theorem designates_of_assigned (hreach : b.reach ≤ p.mbuf.data.length) (hf : f.inData = true)
    (h : p.assigned b f = some (some ptr)) : ptr.Designates p f.len := by
  by_cases hopt : f.optional = true
  · rw [assigned_eq hopt] at h
    obtain ⟨off, hoff, h⟩ := Option.map_eq_some_iff.mp h
    obtain ⟨n, rfl, rfl⟩ := Option.map_eq_some_iff.mp h
    refine ⟨n, rfl, Nat.le_trans ?_ hreach⟩
    revert hoff
    cases b <;> cases f <;> intro hoff <;> cases hoff <;> decide
  · have hthirtyfour : 34 ≤ p.mbuf.data.length := by
      refine Nat.le_trans ?_ hreach
      cases b <;> decide
    cases f with
    | xfsmInPort | xfsmMetadata0 | xfsmMetadata1 | xfsmTimestamp => cases hf
    | srcMac | dstMac | ethType | ipv4Dst | ipv4Src | ipv4Proto | ipv4Tos =>
      cases h
      exact ⟨_, rfl, Nat.le_trans (by decide) hthirtyfour⟩
    | _ => exact absurd rfl hopt

/-- Some branch points at a field that ends there. -/
theorem exists_assigned_reach (p : Packet) (b : Branch) : ∃ f off, f.inData = true ∧
    p.assigned b f = some (some (.data p.number off)) ∧ b.reach = off + f.len := by
  cases b with
  | tcp => exact ⟨.tcpDport, 36, rfl, rfl, rfl⟩
  | icmp => exact ⟨.icmpPayload, 42, rfl, rfl, rfl⟩
  | udp => exact ⟨.udpDport, 36, rfl, rfl, rfl⟩
  | gtpTcp => exact ⟨.innerTcpDport, 72, rfl, rfl, rfl⟩
  | gtpUdp => exact ⟨.innerUdpDport, 72, rfl, rfl, rfl⟩
  | gtpOther => exact ⟨.gtpTeid, 46, rfl, rfl, rfl⟩
  | other => exact ⟨.ipv4Dst, 30, rfl, rfl, rfl⟩

theorem inData_of_optional (h : f.optional = true) : f.inData = true := by
  cases f <;> first | rfl | cases h

/-- A pointer into an earlier packet designates nothing of this one. -/
theorem Ptr.Before.not_designates (h : ptr.Before p.number) (len : ℕ) :
    ¬ptr.Designates p len := by
  rintro ⟨off, rfl, -⟩
  exact Nat.lt_irrefl _ h

/-- **When parsing stays inside the packet**, after any run of packets. -/
theorem parsesInside_iff {ps : List (Byte × Mbuf)} (h : parseRun ps = some before)
    (q : Byte × Mbuf) :
    ParsesInside ⟨q.1, ⟨ps.length, q.2⟩⟩ before ↔
      ∃ b, ReachesFields before ⟨ps.length, q.2⟩ b := by
  unfold ParsesInside
  rw [parsePktHeader_eq]
  constructor
  · rintro ⟨fields, hparse, hinside⟩
    obtain ⟨b, hb, rfl⟩ := Option.map_eq_some_iff.mp hparse
    refine ⟨b, hb, ?_, fun f hf => ?_⟩
    · obtain ⟨f, off, hf, hassigned, hreach⟩ := exists_assigned_reach ⟨ps.length, q.2⟩ b
      obtain ⟨off', heq, hlen⟩ := hinside f hf (.data ps.length off) (by
        unfold Packet.overlay
        rw [hassigned]
        rfl)
      cases heq
      exact hreach ▸ hlen
    · by_contra hne
      obtain ⟨ptr, hptr⟩ := Option.ne_none_iff_exists'.mp hne
      have hdesignates := hinside f (inData_of_optional (optional_of_assigned hf)) ptr (by
        unfold Packet.overlay
        rw [hf]
        exact hptr)
      rcases before_of_parseRun h hptr with rfl | hold
      · cases hf
      · exact Ptr.Before.not_designates (p := ⟨ps.length, q.2⟩) hold f.len hdesignates
  · rintro ⟨b, hb, hreach, hreset⟩
    refine ⟨(⟨ps.length, q.2⟩ : Packet).overlay before b, ?_, fun f hf ptr hptr => ?_⟩
    · exact congrArg (Option.map _) hb
    · unfold Packet.overlay at hptr
      cases hassigned : (⟨ps.length, q.2⟩ : Packet).assigned b f with
      | none =>
        rw [hassigned, Option.getD_none, hreset f hassigned] at hptr
        cases hptr
      | some v =>
        rw [hassigned] at hptr
        obtain rfl : v = some ptr := hptr
        exact designates_of_assigned hreach hf hassigned

end Bounds

/-! ## Two frames -/

/-- The first packet of a table is a TCP segment: what is pointed at is
there. -/
theorem parsesInside_tcp :
    ParsesInside ⟨1, ⟨0, ⟨ipv4Frame ipprotoTcp (List.replicate 20 0), 0, 0⟩⟩⟩ .null :=
  (@parsesInside_iff _ [] rfl (1, ⟨ipv4Frame ipprotoTcp (List.replicate 20 0), 0, 0⟩)).mpr
    ⟨.tcp, rfl, by decide, fun _ _ => rfl⟩

/-- **A frame that ends with its Ethernet header** is read past its end. -/
theorem not_parsesInside :
    ¬ParsesInside ⟨1, ⟨0, ⟨List.replicate 14 0, 0, 0⟩⟩⟩ .null := by
  rintro ⟨fields, hparse, -⟩
  rw [parsePktHeader_eq] at hparse
  cases hparse

end Sw

end FlowBlaze
