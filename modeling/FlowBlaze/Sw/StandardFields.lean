import FlowBlaze.Sw.ParserBounds
/-!
# Fields where the standards put them

The parser takes every frame for IPv4 with a header of twenty bytes: it
reads the protocol at a fixed place and points at fixed places. This file
says where the fields of an Ethernet II frame are, and for which fields
of which frames the parser of a new table finds what is there.
-/

namespace FlowBlaze

namespace Sw

/-- An Ethernet II frame with an IPv4 header, of any legal length. -/
def Ipv4Frame (d : List Byte) : Prop :=
  d[12]? = some 8 ∧ d[13]? = some 0 ∧
    ∃ b, d[14]? = some b ∧ b.toNat / 16 = 4 ∧ 5 ≤ b.toNat % 16

/-- **Where the standards put a header field** of an Ethernet II frame. -/
def StandardAt (d : List Byte) (n : ℕ) : HdrField → Prop
  | .dstMac => n = 0
  | .srcMac => n = 6
  | .ethType => n = 12
  | .ipv4Tos => Ipv4Frame d ∧ n = 15
  | .ipv4Proto => Ipv4Frame d ∧ n = 23
  | .ipv4Src => Ipv4Frame d ∧ n = 26
  | .ipv4Dst => Ipv4Frame d ∧ n = 30
  | f => FieldAt d n f

/-- A frame contains a header field. -/
def HasField (d : List Byte) (f : HdrField) : Prop :=
  ∃ n, StandardAt d n f ∧ n + f.len ≤ d.length

/-- **The parser of a new table finds a field**: its pointer is set exactly
if the frame contains the field, and then its value is the number that
lies there. -/
def FindsField (M : Mem) (f : HdrField) : Prop :=
  ∃ fields, parsePktHeader M .null = some fields ∧
    (fields f ≠ none ↔ HasField M.packet.mbuf.data f) ∧
    ∀ n, StandardAt M.packet.mbuf.data n f → n + f.len ≤ M.packet.mbuf.data.length →
      ∃ v, getHdrValue M fields f = some (some v) ∧
        packetInteger M.packet.mbuf.data n f.len = some v.toNat

/-- The place of a frame's data that a branch points at. -/
def PointsAt (p : Packet) (b : Branch) (f : HdrField) (off : ℕ) : Prop :=
  p.assigned b f = some (some (.data p.number off))

/-- **What lies where the parser points**: the bytes that choose the branch
are there, the field is not an Ethernet address, the branch points
somewhere exactly if the frame contains the field, and the number there
is the number at its own place. -/
structure LaidOut (p : Packet) (f : HdrField) (b : Branch) : Prop where
  branch : p.branch = some b
  short : f.len ≤ 4
  found : (∃ off, PointsAt p b f off) ↔ HasField p.mbuf.data f
  same : ∀ off n, PointsAt p b f off → StandardAt p.mbuf.data n f →
    n + f.len ≤ p.mbuf.data.length →
      packetInteger p.mbuf.data off f.len = packetInteger p.mbuf.data n f.len

section Standard

variable {M : Mem} {p : Packet} {b : Branch} {f : HdrField} {ptr : Ptr}

/-- A header field points into the data, if anywhere. -/
theorem pointsAt_of_assigned (hf : f.inData = true) (h : p.assigned b f = some (some ptr)) :
    ∃ off, ptr = .data p.number off := by
  by_cases hopt : f.optional = true
  · rw [assigned_eq hopt] at h
    obtain ⟨off, -, h⟩ := Option.map_eq_some_iff.mp h
    obtain ⟨n, -, rfl⟩ := Option.map_eq_some_iff.mp h
    exact ⟨n, rfl⟩
  · cases f with
    | xfsmInPort | xfsmMetadata0 | xfsmMetadata1 | xfsmTimestamp => cases hf
    | srcMac | dstMac | ethType | ipv4Dst | ipv4Src | ipv4Proto | ipv4Tos =>
      cases h
      exact ⟨_, rfl⟩
    | _ => exact absurd rfl hopt

/-- The pointers of a new table. -/
theorem overlay_null_eq_some_iff :
    p.overlay .null b f = some ptr ↔ p.assigned b f = some (some ptr) := by
  unfold Packet.overlay
  cases p.assigned b f with
  | none => exact iff_of_false (fun h => by cases h) fun h => by cases h
  | some v => exact ⟨fun h => congrArg some h, fun h => Option.some.inj h⟩

theorem overlay_null_ne_none_iff (hf : f.inData = true) :
    p.overlay .null b f ≠ none ↔ ∃ off, PointsAt p b f off := by
  rw [Option.ne_none_iff_exists']
  simp only [overlay_null_eq_some_iff]
  constructor
  · rintro ⟨ptr, hptr⟩
    obtain ⟨off, rfl⟩ := pointsAt_of_assigned hf hptr
    exact ⟨off, hptr⟩
  · rintro ⟨off, hoff⟩
    exact ⟨_, hoff⟩

/-- The value of a field that is pointed at. -/
theorem getHdrValue_of_pointsAt {off : ℕ} (h : PointsAt M.packet b f off) :
    getHdrValue M (M.packet.overlay .null b) f =
      (readField M f (.data M.packet.number off)).map some := by
  unfold getHdrValue
  rw [overlay_null_eq_some_iff.mpr h]

/-- Every branch points at both Ethernet addresses. -/
theorem pointsAt_of_mac (p : Packet) (b : Branch) (h : f.len = 6) : ∃ off, PointsAt p b f off := by
  cases f <;> first | exact ⟨_, rfl⟩ | cases h

theorem four_or_six (hf : f.inData = true) : f.len ≤ 4 ∨ f.len = 6 := by
  cases f <;> first | exact .inl (by decide) | exact .inr rfl | cases hf

/-- **No Ethernet address is ever found.** -/
theorem not_findsField_of_mac (h : f.len = 6) : ¬FindsField M f := by
  rintro ⟨fields, hparse, hfound, hvalue⟩
  obtain ⟨b, -, rfl⟩ := overlay_of_parse hparse
  obtain ⟨off, hoff⟩ := pointsAt_of_mac M.packet b h
  have hset : M.packet.overlay .null b f ≠ none := by
    rw [overlay_null_eq_some_iff.mpr hoff]
    exact Option.some_ne_none _
  obtain ⟨n, hn, hlen⟩ := hfound.mp hset
  obtain ⟨v, hv, -⟩ := hvalue n hn hlen
  rw [getHdrValue_of_pointsAt hoff, readField_eq_none h] at hv
  cases hv

/-- **When the parser finds a field.** -/
theorem findsField_iff_laidOut (hf : f.inData = true) :
    FindsField M f ↔ ∃ b, LaidOut M.packet f b := by
  constructor
  · intro h
    have hshort : f.len ≤ 4 := (four_or_six hf).resolve_right fun hmac =>
      not_findsField_of_mac hmac h
    obtain ⟨fields, hparse, hfound, hvalue⟩ := h
    obtain ⟨b, hb, rfl⟩ := overlay_of_parse hparse
    rw [overlay_null_ne_none_iff hf] at hfound
    refine ⟨b, hb, hshort, hfound, fun off n hoff hn hlen => ?_⟩
    obtain ⟨v, hv, hnumber⟩ := hvalue n hn hlen
    rw [getHdrValue_of_pointsAt hoff] at hv
    obtain ⟨w, hw, hwv⟩ := Option.map_eq_some_iff.mp hv
    cases hwv
    rw [hnumber, ← toNat_readField_data hshort off, hw]
    rfl
  · rintro ⟨b, hb, hshort, hfound, hsame⟩
    refine ⟨M.packet.overlay .null b, ?_, ?_, fun n hn hlen => ?_⟩
    · rw [parsePktHeader_eq, hb]
      rfl
    · rwa [overlay_null_ne_none_iff hf]
    · obtain ⟨off, hoff⟩ := hfound.mpr ⟨n, hn, hlen⟩
      obtain ⟨number, hnumber⟩ := packetInteger_isSome hlen
      have hread := toNat_readField_data (M := M) hshort off
      rw [hsame off n hoff hn hlen, hnumber] at hread
      obtain ⟨v, hv, rfl⟩ := Option.map_eq_some_iff.mp hread
      refine ⟨v, ?_, hnumber⟩
      rw [getHdrValue_of_pointsAt hoff, hv]
      rfl

/-- **Which fields of which frames are found**: those that lie where the
parser points, and never all of a frame. -/
theorem findsFields_iff (M : Mem) :
    (∀ f, f.inData = true → (FindsField M f ↔ ∃ b, LaidOut M.packet f b)) ∧
      ¬∀ f, f.inData = true → FindsField M f :=
  ⟨fun _ hf => findsField_iff_laidOut hf, fun h => not_findsField_of_mac rfl (h .srcMac rfl)⟩

end Standard

/-! ## Plain frames -/

/-- **A plain frame**: an IPv4 packet with a header of twenty bytes, not a
later fragment, of TCP, ICMP or UDP to another port than that of GTP,
that goes on to the end of the fields of its headers. -/
structure PlainFrame (p : Packet) (b : Branch) (proto : Byte) : Prop where
  ethType : p.mbuf.data[12]? = some 8 ∧ p.mbuf.data[13]? = some 0
  ipv4 : Ipv4At p.mbuf.data 14 20 proto
  branch : p.branch = some b
  plain : b = .tcp ∧ proto = ipprotoTcp ∨ b = .icmp ∧ proto = ipv4IcmpProto ∨
    b = .udp ∧ proto = ipprotoUdp
  reach : b.reach ≤ p.mbuf.data.length

section Plain

variable {p : Packet} {b : Branch} {proto : Byte} {f : HdrField} {n : ℕ}

/-- Where its transport header is. -/
theorem PlainFrame.transportAt_iff (h : PlainFrame p b proto) (q : Byte) :
    TransportAt p.mbuf.data q n ↔ q = proto ∧ n = 34 := by
  constructor
  · rintro ⟨-, -, len, hip, rfl⟩
    obtain ⟨v, hv, -, hlen⟩ := hip.version
    obtain ⟨v', hv', -, htwenty⟩ := h.ipv4.version
    rw [hv] at hv'
    cases hv'
    exact ⟨Option.some.inj (hip.proto.symm.trans h.ipv4.proto), by omega⟩
  · rintro ⟨rfl, rfl⟩
    exact ⟨h.ethType.1, h.ethType.2, 20, h.ipv4, rfl⟩

/-- It has no GTP header. -/
theorem PlainFrame.not_gtpAt (h : PlainFrame p b proto) (len : ℕ) :
    ¬GtpAt p.mbuf.data n len := by
  rintro ⟨⟨t, ht, h36, h37, -⟩, -⟩
  obtain ⟨hudp, rfl⟩ := (h.transportAt_iff ipprotoUdp).mp ht
  have hb := h.branch
  unfold Packet.branch at hb
  rw [h.ipv4.proto, ← hudp, Option.bind_eq_bind, Option.bind_some, if_neg (by decide),
    if_neg (by decide), if_pos rfl] at hb
  have hdport : (be16ptr2h fun i => p.mbuf.data[36 + i]?) = some 2152 := by
    have hfirst : p.mbuf.data[36 + 0]? = some 8 := h36
    have hsecond : p.mbuf.data[36 + 1]? = some 104 := h37
    simp only [be16ptr2h, hfirst, hsecond]
    decide
  rw [hdport, Option.bind_eq_bind, Option.bind_some, if_pos (by decide)] at hb
  obtain ⟨inProto, -, hb⟩ := Option.bind_eq_some_iff.mp hb
  have hplain : b = .udp := by
    rcases h.plain with ⟨-, htcp⟩ | ⟨-, hicmp⟩ | ⟨hb, -⟩
    · exact absurd (hudp.trans htcp) (by decide)
    · exact absurd (hudp.trans hicmp) (by decide)
    · exact hb
  subst hplain
  split at hb
  · cases hb
  · split at hb <;> cases hb

theorem PlainFrame.not_innerAt (h : PlainFrame p b proto) (len : ℕ) (q : Byte) :
    ¬InnerAt p.mbuf.data n len q := by
  rintro ⟨g, glen, hgtp, -⟩
  exact h.not_gtpAt glen hgtp

theorem PlainFrame.ipv4Frame (h : PlainFrame p b proto) : Ipv4Frame p.mbuf.data := by
  obtain ⟨v, hv, hversion, hlen⟩ := h.ipv4.version
  exact ⟨h.ethType.1, h.ethType.2, v, hv, hversion, by omega⟩

/-- **The parser points where the standards say.** -/
theorem PlainFrame.standardAt_iff (h : PlainFrame p b proto) (hf : f.inData = true) :
    StandardAt p.mbuf.data n f ↔ PointsAt p b f n := by
  have hip := h.ipv4Frame
  have hgtp : ∀ n len, ¬GtpAt p.mbuf.data n len := fun n len => h.not_gtpAt len
  have hinner : ∀ n len q, ¬InnerAt p.mbuf.data n len q := fun n len q => h.not_innerAt len q
  unfold PointsAt
  rcases h.plain with ⟨rfl, rfl⟩ | ⟨rfl, rfl⟩ | ⟨rfl, rfl⟩ <;> cases f <;>
    first
    | exact absurd hf (by decide)
    | simp [StandardAt, FieldAt, Packet.assigned, Branch.sets, h.transportAt_iff, hgtp, hinner, hip,
        ipprotoTcp, ipprotoUdp, ipv4IcmpProto, eq_comm]

/-- **All fields of a plain frame but the Ethernet addresses are found.** -/
theorem PlainFrame.findsField (M : Mem) (h : PlainFrame M.packet b proto) (hf : f.inData = true)
    (hshort : f.len ≤ 4) : FindsField M f := by
  refine (findsField_iff_laidOut hf).mpr ⟨b, h.branch, hshort, ?_, fun off n hoff hn hlen => ?_⟩
  · constructor
    · rintro ⟨off, hoff⟩
      obtain ⟨off', heq, hlen⟩ := designates_of_assigned h.reach hf hoff
      cases heq
      exact ⟨off, (h.standardAt_iff hf).mpr hoff, hlen⟩
    · rintro ⟨n, hn, -⟩
      exact ⟨n, (h.standardAt_iff hf).mp hn⟩
  · have hn' := (h.standardAt_iff hf).mp hn
    unfold PointsAt at hoff hn'
    rw [hoff] at hn'
    cases hn'
    rfl

end Plain

/-! ## A tunnel -/

/-- A GTP-U packet between hosts 1.1.1.1 with a TCP segment between hosts
2.2.2.2 inside. -/
def tunnelFrame : List Byte :=
  ipv4Frame ipprotoUdp ([8, 104, 8, 104, 0, 56, 0, 0] ++ [48, 255, 0, 40, 0, 0, 0, 1] ++
    [0x45, 0, 0, 40, 0, 0, 0, 0, 64, ipprotoTcp, 0, 0] ++ List.replicate 8 2 ++
    List.replicate 20 0)

/-- **The address inside a tunnel is taken from outside.** -/
theorem not_findsField :
    ¬∀ f, f.inData = true → FindsField ⟨1, ⟨0, ⟨tunnelFrame, 0, 0⟩⟩⟩ f := by
  intro hall
  obtain ⟨fields, hparse, -, hvalue⟩ := hall .innerIpv4Src rfl
  have hudp : TransportAt tunnelFrame ipprotoUdp 34 :=
    ⟨rfl, rfl, 20, ⟨⟨_, rfl, rfl, rfl⟩, by decide, ⟨⟨_, rfl, rfl⟩, rfl⟩, rfl⟩, rfl⟩
  have hgtp : GtpAt tunnelFrame 42 8 := ⟨⟨34, hudp, rfl, rfl, rfl⟩, _, rfl, rfl, rfl⟩
  have hinner : InnerAt tunnelFrame 50 20 ipprotoTcp :=
    ⟨42, 8, hgtp, rfl, rfl, ⟨⟨_, rfl, rfl, rfl⟩, by decide, ⟨⟨_, rfl, rfl⟩, rfl⟩, rfl⟩⟩
  obtain ⟨v, hv, hnumber⟩ := hvalue 62 ⟨50, 20, ipprotoTcp, hinner, rfl⟩ (by decide)
  obtain ⟨b, hb, rfl⟩ := overlay_of_parse hparse
  cases hb
  cases hv
  revert hnumber
  decide

end Sw

end FlowBlaze
