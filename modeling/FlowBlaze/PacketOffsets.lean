import FlowBlaze.Common.Thread
import FlowBlaze.Encoding
import FlowBlaze.Sw.FieldBytes
import FlowBlaze.Xl.ParseTree
import Mathlib.Logic.Function.Basic
/-!
# Packet fields — where they are declared, where they are read

A program declares where each of its packet fields lies, from which byte
of the packet on and how many bytes long. The compiler writes that down
next to the name. The software loader looks at the name only, and the
dataplane reads where its own parser points: where that is, and when it
is where the program says.
-/

namespace FlowBlaze

open Common Json Sw Xl

/-! ## Declarations — `PacketFieldFactory` -/

/-- `toEnum`. -/
def PacketFieldType.toEnum : String → Option PacketFieldType
  | "packet.data" => some .xtraPktData
  | "packet.metadata" => some .xtraPktMetadata
  | _ => none

/-- `toString`. -/
def PacketFieldType.name : PacketFieldType → String
  | .xtraPktData => "XTRA_PKT_DATA"
  | .xtraPktMetadata => "XTRA_PKT_METADATA"

/-- `INDEX`: one number, or two with a colon between them, and perhaps a
plus in front of the second. -/
inductive Index
  | one (element0 : String)
  | plus (element0 element1 : String)
  | range (element0 element1 : String)

/-- `Integer.valueOf`, of digits. -/
def integerValueOf (digits : String) : Option ℕ :=
  if decimal digits < 2 ^ 31 then some (decimal digits) else none

/-- `getPacketFieldFromIndexAccess`. -/
def getPacketFieldFromIndexAccess (fieldString : String) (index : Index) (name : String) :
    Option PacketField :=
  (PacketFieldType.toEnum fieldString).bind fun packetFieldType =>
    match index with
    | .one element0 => some ⟨packetFieldType.name, element0, "1", name⟩
    | .plus element0 element1 => some ⟨packetFieldType.name, element0, element1, name⟩
    | .range element0 element1 =>
      (integerValueOf element1).bind fun last => (integerValueOf element0).bind fun first =>
        if first > last then none
        else some ⟨packetFieldType.name, element0, (last - first).repr, name⟩

/-- `packetFields`. -/
abbrev PacketFieldFactory := LinkedHashMap String PacketField

/-- The constructor. -/
def PacketFieldFactory.new : PacketFieldFactory :=
  [("packet.metadata", ⟨"packet.metadata", "0", "4", "packet.metadata"⟩)]

/-- `packet_field_entry`, with the text of the field that is indexed. -/
structure PacketFieldEntryContext where
  identifier : String
  fieldElem : String
  index : Index

/-- `packet_field_definition`. -/
structure PacketFieldDefinitionContext where
  identifier : String
  entries : List PacketFieldEntryContext

/-- An entry of `exitPacket_field_definition`. -/
def PacketFieldFactory.addEntry (identifier : String) (F : PacketFieldFactory)
    (entry : PacketFieldEntryContext) : Option PacketFieldFactory :=
  let fieldName := identifier ++ "." ++ entry.identifier
  (getPacketFieldFromIndexAccess entry.fieldElem entry.index fieldName).map fun packetField =>
    F.put (.ofEq String) fieldName packetField

/-- The definitions in front of a program. -/
def PacketFieldFactory.define (definitions : List PacketFieldDefinitionContext) :
    Option PacketFieldFactory :=
  definitions.foldlM (fun F d => d.entries.foldlM (addEntry d.identifier) F) new

/-- `EventFieldFactory.getEventField`. -/
def getEventField (eventName fieldName : String) : Option EventField :=
  (Event.toEvent eventName).bind fun event =>
    match event, fieldName with
    | .xtraPktRcvd, "port" => some ⟨"XTRA_PKT_RCVD_PORT"⟩
    | .xtraTimeout, "data0" => some ⟨"XTRA_TIMEOUT_DATA0"⟩
    | .xtraTimeout, "data1" => some ⟨"XTRA_TIMEOUT_DATA1"⟩
    | _, _ => none

/-- The terms that may stand for a packet field. -/
inductive FieldTerm
  | fieldElem (id0 id1 : String)
  | indexAccess (fieldElem : String) (index : Index)

/-- `OperandFactory.getOperand`. -/
def PacketFieldFactory.getOperand (F : PacketFieldFactory) : FieldTerm → Option Operand
  | .fieldElem id0 id1 =>
    match getEventField id0 id1 with
    | some field => some (.eventField field)
    | none => (F.get (.ofEq String) (id0 ++ "." ++ id1)).map .packetField
  | .indexAccess fieldElem index =>
    (getPacketFieldFromIndexAccess fieldElem index "").map .packetField

section Declared

variable {F : PacketFieldFactory} {o : PacketField}

theorem value_of_indexAccess {fieldString name : String} {index : Index}
    (h : getPacketFieldFromIndexAccess fieldString index name = some o) : o.value = name := by
  obtain ⟨type, -, h⟩ := Option.bind_eq_some_iff.mp h
  cases index with
  | one element0 =>
    cases h
    rfl
  | plus element0 element1 =>
    cases h
    rfl
  | range element0 element1 =>
    obtain ⟨last, -, h⟩ := Option.bind_eq_some_iff.mp h
    obtain ⟨first, -, h⟩ := Option.bind_eq_some_iff.mp h
    split at h
    · cases h
    · cases h
      rfl

/-- **Declared fields** are known under the names that they carry. -/
theorem value_of_define {definitions : List PacketFieldDefinitionContext}
    (h : PacketFieldFactory.define definitions = some F) {name : String}
    (ho : F.get (.ofEq String) name = some o) : o.value = name := by
  have hinv : ∀ name o, F.get (.ofEq String) name = some o → o.value = name := by
    let Named (F : PacketFieldFactory) : Prop :=
      ∀ name o, F.get (.ofEq String) name = some o → o.value = name
    refine foldlM_invariant (I := Named) (fun F d F' hF h => ?_) (fun name o h => ?_) h
    · refine foldlM_invariant (I := Named) (fun F entry F' hF h => ?_) hF h
      obtain ⟨field, hfield, rfl⟩ := Option.map_eq_some_iff.mp h
      intro name o ho
      rw [LinkedHashMap.get_put] at ho
      split at ho
      · next hname =>
        cases ho
        rw [hname]
        exact value_of_indexAccess hfield
      · exact hF name o ho
    · -- the only field at the start
      unfold PacketFieldFactory.new LinkedHashMap.get at h
      by_cases hname : name = "packet.metadata"
      · subst hname
        cases h
        rfl
      · simp [KeyEq.ofEq, hname] at h
  exact hinv name o ho

/-- **The loader takes no packet field for a register or an event field**: a
declared name has a dot in it. -/
theorem strToField_of_getOperand {definitions : List PacketFieldDefinitionContext}
    (hF : PacketFieldFactory.define definitions = some F) {t : FieldTerm}
    (ho : F.getOperand t = some (.packetField o)) {h : HdrField}
    (hload : strToField o.value = some h) :
    headerFields.lookup o.value = some h ∧ h ≠ .xfsmTimestamp := by
  have hvalue : o.value = "" ∨ ∃ id0 id1, o.value = id0 ++ "." ++ id1 := by
    cases t with
    | fieldElem id0 id1 =>
      unfold PacketFieldFactory.getOperand at ho
      simp only at ho
      split at ho
      · cases ho
      · obtain ⟨o', ho', heq⟩ := Option.map_eq_some_iff.mp ho
        cases heq
        exact Or.inr ⟨id0, id1, value_of_define hF ho'⟩
    | indexAccess fieldElem index =>
      obtain ⟨o', ho', heq⟩ := Option.map_eq_some_iff.mp ho
      cases heq
      exact Or.inl (value_of_indexAccess ho')
  have hdot : ∀ s : String, '.' ∉ s.toList → s ≠ "" → o.value ≠ s := by
    rintro s hs hne rfl
    rcases hvalue with hvalue | ⟨id0, id1, hvalue⟩
    · exact hne hvalue
    · rw [hvalue] at hs
      simp at hs
  have hport := hdot "XTRA_PKT_RCVD_PORT" (by decide) (by decide)
  have htime := hdot "XTRA_TIMESTAMP" (by decide) (by decide)
  have hevent : eventFields.lookup o.value = none := by
    unfold eventFields
    rw [List.lookup_cons, beq_eq_false_iff_ne.mpr hport]
    rfl
  have hlookup : headerFields.lookup o.value = some h := by
    unfold strToField at hload
    rwa [hevent, Option.none_or] at hload
  refine ⟨hlookup, ?_⟩
  rintro rfl
  -- only one name is that of the timestamp
  have hmem : (o.value, HdrField.xfsmTimestamp) ∈ headerFields := by
    obtain ⟨l₁, l₂, heq, -⟩ := List.lookup_eq_some_iff.mp hlookup
    rw [heq]
    exact List.mem_append_right _ List.mem_cons_self
  simp [headerFields] at hmem
  exact htime hmem

end Declared

/-! ## Reading -/

/-- The parser finds a field in a packet, from wherever its pointers were. -/
def Finds (M : Mem) (h : HdrField) : Prop :=
  ∃ fields off, parsePktHeader M .null = some fields ∧
    fields h = some (.data M.packet.number off) ∧ off + h.len ≤ M.packet.mbuf.data.length

/-- **An operand is honoured**: where the loader accepts it, and the parser
finds the field, a condition or an action reads what lies where it was
declared. -/
def OperandHonoured (o : PacketField) (old : Word64) : Prop :=
  ∀ type value, getOperand old (some (Operand.packetField o).serialize) = some (type, value) →
    ∀ (E : Env) before regs v h, strToField o.value = some h →
      parsePktHeader E.mem before = some E.pktFields → Finds E.mem h →
      ∃ n, packetInteger E.mem.packet.mbuf.data (decimal o.from') (decimal o.length) = some n ∧
        (E.operand regs type value v).map BitVec.toNat = some n

/-- **A field of a flow key is honoured**: where the loader accepts it, and
the parser finds it, the key is made of what lies where it was declared. -/
def KeyHonoured (o : PacketField) : Prop :=
  ∀ h, jsonToLookupKey (some (.array [(Operand.packetField o).serialize])) = some [h] →
    ∀ (M : Mem) before fields, parsePktHeader M before = some fields → Finds M h →
      ∃ n, packetInteger M.packet.mbuf.data (decimal o.from') (decimal o.length) = some n ∧
        (getHdrValue M fields h).join.map BitVec.toNat = some n

section Read

variable {M : Mem} {off len : ℕ} {h : HdrField}

/-- A pointer that was set, wherever it was before. -/
theorem assigned_of_finds (hfinds : Finds M h) {before fields : PktFields}
    (hparse : parsePktHeader M before = some fields) :
    ∃ off b, M.packet.branch = some b ∧
      M.packet.assigned b h = some (some (.data M.packet.number off)) ∧
      fields h = some (.data M.packet.number off) ∧ off + h.len ≤ M.packet.mbuf.data.length := by
  obtain ⟨fields', off, hnull, hptr, hlen⟩ := hfinds
  obtain ⟨b, hb, rfl⟩ := overlay_of_parse hparse
  obtain ⟨b', hb', rfl⟩ := overlay_of_parse hnull
  rw [hb] at hb'
  cases hb'
  unfold Packet.overlay at hptr ⊢
  cases hassigned : M.packet.assigned b h with
  | none =>
    rw [hassigned] at hptr
    cases hptr
  | some v =>
    rw [hassigned] at hptr
    have hv : v = some (.data M.packet.number off) := hptr
    exact ⟨off, b, hb, hassigned.trans (congrArg some hv), hv, hlen⟩

end Read

/-! ## Packets to tell places apart -/

/-- The first bytes of a sequence, as a packet. -/
def packetOf (g : ℕ → Byte) (n : ℕ) : Mem := ⟨0, ⟨0, ⟨(List.range n).map g, 0, 0⟩⟩⟩

/-- The big-endian number in a sequence of bytes. -/
def bytesInteger (g : ℕ → Byte) (off : ℕ) : ℕ → ℕ
  | 0 => 0
  | len + 1 => bytesInteger g off len * 256 + (g (off + len)).toNat

section Sequences

variable {g : ℕ → Byte} {n off len : ℕ}

theorem data_packetOf (i : ℕ) :
    (packetOf g n).packet.mbuf.data[i]? = if i < n then some (g i) else none := by
  change ((List.range n).map g)[i]? = _
  rw [List.getElem?_map]
  split
  · next hi => rw [List.getElem?_range hi, Option.map_some]
  · next hi => rw [List.getElem?_eq_none (by rw [List.length_range]; omega), Option.map_none]

theorem packetInteger_packetOf (hlen : off + len ≤ n) :
    packetInteger (packetOf g n).packet.mbuf.data off len = some (bytesInteger g off len) := by
  induction len with
  | zero => rfl
  | succ len ih =>
    rw [packetInteger, ih (by omega), Option.bind_some, data_packetOf, if_pos (by omega)]
    rfl

/-- **A byte that was zero** counts by its place. -/
theorem bytesInteger_update {j : ℕ} (hj : g j = 0) :
    bytesInteger (Function.update g j 1) off len = bytesInteger g off len +
      if off ≤ j ∧ j < off + len then 256 ^ (off + len - 1 - j) else 0 := by
  induction len with
  | zero =>
    rw [if_neg (by omega)]
    rfl
  | succ len ih =>
    rw [bytesInteger, bytesInteger, ih]
    rcases Nat.lt_trichotomy j (off + len) with hlt | heq | hgt
    · rw [Function.update_of_ne (by omega)]
      by_cases hoff : off ≤ j
      · rw [if_pos ⟨hoff, hlt⟩, if_pos ⟨hoff, by omega⟩,
          show off + (len + 1) - 1 - j = off + len - 1 - j + 1 by omega, Nat.pow_succ]
        omega
      · rw [if_neg (by omega), if_neg (by omega)]
        omega
    · rw [← heq, Function.update_self, hj, if_neg (by omega), if_pos (by omega),
        show off + (len + 1) - 1 - j = 0 by omega, Nat.pow_zero, Nat.add_zero]
      have hone : (1 : Byte).toNat = 1 := rfl
      have hzero : (0 : Byte).toNat = 0 := rfl
      omega
    · rw [Function.update_of_ne (by omega), if_neg (by omega), if_neg (by omega)]
      omega

/-- A long packet takes some branch, by its protocol. -/
theorem branch_packetOf (hn : 60 ≤ n) : ∃ b, (packetOf g n).packet.branch = some b ∧
    (g 23 = ipprotoTcp → b = .tcp) ∧
    (g 23 = ipprotoUdp → b = .udp ∨ b = .gtpTcp ∨ b = .gtpUdp ∨ b = .gtpOther) := by
  have hdata : ∀ i < 60, (packetOf g n).packet.mbuf.data[i]? = some (g i) := fun i hi => by
    rw [data_packetOf, if_pos (by omega)]
  unfold Packet.branch
  rw [hdata 23 (by omega), Option.bind_eq_bind, Option.bind_some]
  by_cases htcp : g 23 = ipprotoTcp
  · rw [if_pos htcp]
    exact ⟨.tcp, rfl, fun _ => rfl, fun hudp => absurd (htcp.symm.trans hudp) (by decide)⟩
  · rw [if_neg htcp]
    by_cases hicmp : g 23 = ipv4IcmpProto
    · rw [if_pos hicmp]
      exact ⟨.icmp, rfl, fun h => absurd h htcp,
        fun hudp => absurd (hicmp.symm.trans hudp) (by decide)⟩
    · rw [if_neg hicmp]
      by_cases hudp : g 23 = ipprotoUdp
      · rw [if_pos hudp]
        obtain ⟨dport, hdport⟩ : ∃ dport, (be16ptr2h fun i =>
            (packetOf g n).packet.mbuf.data[36 + i]?) = some dport := by
          have hsome := toNat_be16ptr2h fun i => (packetOf g n).packet.mbuf.data[36 + i]?
          rw [hdata 36 (by omega), hdata (36 + 1) (by omega)] at hsome
          obtain ⟨dport, hdport, -⟩ := Option.map_eq_some_iff.mp hsome
          exact ⟨dport, hdport⟩
        rw [hdport, Option.bind_eq_bind, Option.bind_some, hdata 59 (by omega)]
        simp only [Option.bind_some]
        split
        · split
          · exact ⟨.gtpTcp, rfl, fun h => absurd h htcp, fun _ => Or.inr (Or.inl rfl)⟩
          · split
            · exact ⟨.gtpUdp, rfl, fun h => absurd h htcp, fun _ => Or.inr (Or.inr (Or.inl rfl))⟩
            · exact ⟨.gtpOther, rfl, fun h => absurd h htcp,
                fun _ => Or.inr (Or.inr (Or.inr rfl))⟩
        · exact ⟨.udp, rfl, fun h => absurd h htcp, fun _ => Or.inl rfl⟩
      · rw [if_neg hudp]
        exact ⟨.other, rfl, fun h => absurd h htcp, fun h => absurd h hudp⟩

end Sequences

/-- The protocol of the packets that have a field. -/
def Sw.HdrField.proto : HdrField → Byte
  | .tcpSport | .tcpDport => ipprotoTcp
  | .udpSport | .udpDport => ipprotoUdp
  | _ => 0

/-- **The fields that the loader knows by name**: where the parser points for
them, and packets in which it finds them. The place is not right behind
the protocol. -/
structure Known (h : HdrField) (off : ℕ) : Prop where
  place : h.place = some (.xtraPktData, off, h.len)
  pos : 0 < h.len
  ne : off ≠ 24
  points : ∀ (p : Packet) (b : Branch) ptr, p.assigned b h = some (some ptr) →
    ptr = .data p.number off
  found : ∀ (g : ℕ → Byte) n, 60 ≤ n → (off = 23 ∨ g 23 = h.proto) →
    ∃ b, (packetOf g n).packet.branch = some b ∧
      (packetOf g n).packet.assigned b h = some (some (.data 0 off))

theorem known_of_lookup {name : String} {h : HdrField} (hname : headerFields.lookup name = some h)
    (hne : h ≠ .xfsmTimestamp) : ∃ off, Known h off := by
  have hmem : h ∈ headerFields.map Prod.snd := by
    obtain ⟨l₁, l₂, heq, -⟩ := List.lookup_eq_some_iff.mp hname
    rw [heq]
    exact List.mem_map_of_mem (f := Prod.snd) (List.mem_append_right l₁ List.mem_cons_self)
  -- a field that every branch sets
  have hevery : ∀ off, h.place = some (.xtraPktData, off, h.len) → 0 < h.len → off ≠ 24 →
      (∀ (p : Packet) b, p.assigned b h = some (some (.data p.number off))) → Known h off := by
    refine fun off hplace hpos hne hassigned => ⟨hplace, hpos, hne, fun p b ptr hptr => ?_,
      fun g n hn _ => ?_⟩
    · rw [hassigned p b] at hptr
      cases hptr
      rfl
    · obtain ⟨b, hb, -⟩ := branch_packetOf hn
      exact ⟨b, hb, hassigned _ b⟩
  simp only [headerFields, List.map_cons, List.map_nil, List.mem_cons, List.not_mem_nil,
    or_false] at hmem
  rcases hmem with rfl | rfl | rfl | rfl | rfl | rfl | rfl | rfl | rfl | rfl | rfl | rfl
  · exact ⟨6, hevery 6 rfl (by decide) (by decide) fun _ _ => rfl⟩
  · exact ⟨0, hevery 0 rfl (by decide) (by decide) fun _ _ => rfl⟩
  · exact ⟨12, hevery 12 rfl (by decide) (by decide) fun _ _ => rfl⟩
  · exact ⟨26, hevery 26 rfl (by decide) (by decide) fun _ _ => rfl⟩
  · exact ⟨30, hevery 30 rfl (by decide) (by decide) fun _ _ => rfl⟩
  · exact ⟨23, hevery 23 rfl (by decide) (by decide) fun _ _ => rfl⟩
  · exact ⟨15, hevery 15 rfl (by decide) (by decide) fun _ _ => rfl⟩
  · refine ⟨34, rfl, by decide, by decide, fun p b ptr hptr => ?_, fun g n hn hproto => ?_⟩
    · cases b <;> cases hptr
      rfl
    · obtain ⟨b, hb, htcp, -⟩ := branch_packetOf hn
      obtain rfl := htcp (hproto.resolve_left (by decide))
      exact ⟨.tcp, hb, rfl⟩
  · refine ⟨36, rfl, by decide, by decide, fun p b ptr hptr => ?_, fun g n hn hproto => ?_⟩
    · cases b <;> cases hptr
      rfl
    · obtain ⟨b, hb, htcp, -⟩ := branch_packetOf hn
      obtain rfl := htcp (hproto.resolve_left (by decide))
      exact ⟨.tcp, hb, rfl⟩
  · refine ⟨34, rfl, by decide, by decide, fun p b ptr hptr => ?_, fun g n hn hproto => ?_⟩
    · cases b <;> cases hptr <;> rfl
    · obtain ⟨b, hb, -, hudp⟩ := branch_packetOf hn
      have hb' := hudp (hproto.resolve_left (by decide))
      refine ⟨b, hb, ?_⟩
      rcases hb' with rfl | rfl | rfl | rfl <;> rfl
  · refine ⟨36, rfl, by decide, by decide, fun p b ptr hptr => ?_, fun g n hn hproto => ?_⟩
    · cases b <;> cases hptr <;> rfl
    · obtain ⟨b, hb, -, hudp⟩ := branch_packetOf hn
      have hb' := hudp (hproto.resolve_left (by decide))
      refine ⟨b, hb, ?_⟩
      rcases hb' with rfl | rfl | rfl | rfl <;> rfl
  · exact absurd rfl hne

/-! ## Where operands are honoured -/

section Honoured

variable {o : PacketField} {old : Word64} {h : HdrField} {off : ℕ}

/-- **The number in a packet determines its place.** -/
theorem place_of_integers {from' len : ℕ} (hh : Known h off)
    (heq : ∀ g : ℕ → Byte, (off = 23 ∨ g 23 = h.proto) →
      bytesInteger g from' len = bytesInteger g off h.len) : from' = off ∧ len = h.len := by
  have hpos := hh.pos
  have hne := hh.ne
  -- a packet that is zero but for the protocol, and one more byte
  let g : ℕ → Byte := Function.update (fun _ => 0) 23 h.proto
  have hzero : ∀ j, j ≠ 23 → g j = 0 := fun j hj => Function.update_of_ne hj _ _
  have hbyte : ∀ j, (off = 23 ∨ j ≠ 23) → g j = 0 →
      (if from' ≤ j ∧ j < from' + len then 256 ^ (from' + len - 1 - j) else 0) =
        if off ≤ j ∧ j < off + h.len then 256 ^ (off + h.len - 1 - j) else 0 := by
    intro j hj hgj
    have hbase := heq g (Or.inr (Function.update_self _ _ _))
    have hmore := heq (Function.update g j 1) (hj.imp_right fun hj => by
      rw [Function.update_of_ne (Ne.symm hj)]
      exact Function.update_self _ _ _)
    rw [bytesInteger_update hgj, bytesInteger_update hgj] at hmore
    omega
  have hproto : off = 23 → g 23 = 0 := by
    intro hoff
    have hplace := hh.place
    subst hoff
    have hnone : h.proto = 0 := by
      revert hplace
      cases h <;> first | (intro _; rfl) | (intro hplace; cases hplace)
    exact (Function.update_self _ _ _).trans hnone
  have hfirst := hbyte off (by omega) (by
    by_cases hoff : off = 23
    · rw [hoff]
      exact hproto hoff
    · exact hzero off hoff)
  rw [if_pos (by omega : off ≤ off ∧ off < off + h.len)] at hfirst
  by_cases hin : from' ≤ off ∧ off < from' + len
  · rw [if_pos hin] at hfirst
    have hend := Nat.pow_right_injective (by decide : 2 ≤ 256) hfirst
    by_cases hlt : from' < off
    · -- the byte in front of the field counts in one only
      have hbefore := hbyte (off - 1) (by omega) (hzero _ (by omega))
      rw [if_pos (by omega), if_neg (by omega)] at hbefore
      exact absurd hbefore (Nat.pos_iff_ne_zero.mp (Nat.pow_pos (by decide)))
    · omega
  · rw [if_neg hin] at hfirst
    exact absurd hfirst.symm (Nat.pos_iff_ne_zero.mp (Nat.pow_pos (by decide)))

/-- A packet in which the parser finds a field. -/
theorem finds_packetOf (hh : Known h off) {g : ℕ → Byte} {n : ℕ} (hn : 60 ≤ n)
    (hlen : off + h.len ≤ n) (hproto : off = 23 ∨ g 23 = h.proto) :
    ∃ fields, parsePktHeader (packetOf g n) .null = some fields ∧
      fields h = some (.data 0 off) ∧ Finds (packetOf g n) h := by
  obtain ⟨b, hb, hassigned⟩ := hh.found g n hn hproto
  have hparse : parsePktHeader (packetOf g n) .null =
      some ((packetOf g n).packet.overlay .null b) := by
    rw [parsePktHeader_eq, hb]
    rfl
  have hptr : (packetOf g n).packet.overlay .null b h = some (.data 0 off) := by
    unfold Packet.overlay
    rw [hassigned]
    rfl
  refine ⟨_, hparse, hptr, _, off, hparse, hptr, ?_⟩
  change off + h.len ≤ ((List.range n).map g).length
  rw [List.length_map, List.length_range]
  exact hlen

/-- **Where the number of a place is what the dataplane reads.** The reading
of the field is the same for operands and keys. -/
theorem honoured_of_reads (hh : Known h off) (reads : Mem → PktFields → Option ℕ)
    (hreads : ∀ (M : Mem) fields ptr, fields h = some ptr →
      reads M fields = (readField M h ptr).map BitVec.toNat) :
    (∀ (M : Mem) before fields, parsePktHeader M before = some fields → Finds M h →
      ∃ n, packetInteger M.packet.mbuf.data (decimal o.from') (decimal o.length) = some n ∧
        reads M fields = some n) ↔
      h.len ≤ 4 ∧ h.place = some (.xtraPktData, decimal o.from', decimal o.length) := by
  constructor
  · intro hall
    have hlen : h.len ≤ 4 := by
      by_contra hlong
      have hsix : h.len = 6 := by
        have hplace := hh.place
        cases h <;> first | rfl | exact absurd (by decide) hlong | cases hplace
      obtain ⟨fields, hparse, hptr, hfinds⟩ := finds_packetOf hh (g := fun i =>
        if i = 23 then h.proto else 0) (n := 60 + off + h.len) (by omega) (by omega)
        (Or.inr (if_pos rfl))
      obtain ⟨n, -, hn⟩ := hall _ _ _ hparse hfinds
      rw [hreads _ _ _ hptr, readField_eq_none hsix] at hn
      cases hn
    refine ⟨hlen, ?_⟩
    have hsame := @place_of_integers _ _ (decimal o.from') (decimal o.length) hh
      fun g hg => by
        obtain ⟨fields, hparse, hptr, hfinds⟩ := finds_packetOf hh (g := g)
          (n := 60 + off + h.len + decimal o.from' + decimal o.length) (by omega) (by omega) hg
        obtain ⟨n, hdeclared, hn⟩ := hall _ _ _ hparse hfinds
        have hread := toNat_readField_data hlen off
          (M := packetOf g (60 + off + h.len + decimal o.from' + decimal o.length))
        rw [packetInteger_packetOf (by omega)] at hread hdeclared
        rw [hreads _ _ _ hptr] at hn
        exact Option.some.inj (hdeclared.trans (hn.symm.trans hread))
    rw [hsame.1, hsame.2]
    exact hh.place
  · rintro ⟨hlen, hplace⟩ M before fields hparse hfinds
    obtain ⟨off', b, hb, hassigned, hptr, hinside⟩ := assigned_of_finds hfinds hparse
    obtain rfl : off' = off := by
      have hptr' := hh.points _ _ _ hassigned
      cases hptr'
      rfl
    have hown : (PacketFieldType.xtraPktData, off', h.len) =
        (.xtraPktData, decimal o.from', decimal o.length) :=
      Option.some.inj (hh.place.symm.trans hplace)
    simp only [Prod.mk.injEq, true_and] at hown
    obtain ⟨n, hn⟩ := packetInteger_isSome hinside
    refine ⟨n, ?_, ?_⟩
    · rw [← hown.1, ← hown.2]
      exact hn
    · rw [hreads _ _ _ hptr, toNat_readField_data hlen off']
      exact hn

/-- The field of a flow key of one field. -/
theorem jsonToLookupKey_singleton {h' : HdrField} :
    jsonToLookupKey (some (.array [(Operand.packetField o).serialize])) = some [h'] ↔
      headerFields.lookup o.value = some h' := by
  unfold jsonToLookupKey
  change ((headerFields.lookup o.value).bind fun f => some [f]) = _ ↔ _
  cases headerFields.lookup o.value <;> simp

/-- **Where a packet field is honoured.** For every operand that a program
makes of its packet fields, and that the software loader accepts: what
the dataplane reads in every packet with the field is the number that
lies where the program says, exactly when the program says what the
parser does, the field is not an address of six bytes and, for an operand
of a condition or an action, its record's upper half was clear. -/
theorem honoured_iff {definitions : List PacketFieldDefinitionContext} {F : PacketFieldFactory}
    (hF : PacketFieldFactory.define definitions = some F) {t : FieldTerm}
    (ho : F.getOperand t = some (.packetField o)) (hload : strToField o.value = some h)
    (old : Word64) :
    (OperandHonoured o old ↔ old.toNat < 2 ^ 32 ∧ h.len ≤ 4 ∧
      h.place = some (.xtraPktData, decimal o.from', decimal o.length)) ∧
    (KeyHonoured o ↔ h.len ≤ 4 ∧
      h.place = some (.xtraPktData, decimal o.from', decimal o.length)) := by
  obtain ⟨hlookup, hne⟩ := strToField_of_getOperand hF ho hload
  obtain ⟨off, hh⟩ := known_of_lookup hlookup hne
  have hget : getOperand old (some (Operand.packetField o).serialize) =
      some (.xfsmHdrField, hdrFieldValue old h) := by
    rw [getOperand_packetField, hload]
    rfl
  constructor
  · -- every operand of the field is read in one way
    let reads (v : Word64) (M : Mem) (fields : PktFields) : Option ℕ :=
      ((getHdrValue M fields h).map fun value => value.getD v).map BitVec.toNat
    have hreads : ∀ v (M : Mem) fields ptr, fields h = some ptr →
        reads v M fields = (readField M h ptr).map BitVec.toNat := by
      intro v M fields ptr hptr
      simp only [reads, getHdrValue, hptr, Option.map_map]
      rfl
    have hoperand : ∀ (E : Env) regs v, old.toNat < 2 ^ 32 →
        (E.operand regs .xfsmHdrField (hdrFieldValue old h) v).map BitVec.toNat =
          reads v E.mem E.pktFields := by
      intro E regs v hold
      have hnumber : (hdrFieldValue old h).toNat = h.number :=
        hdrFieldValue_eq_iff.mpr ⟨hold, rfl⟩
      unfold Env.operand
      simp only [hnumber, HdrField.ofNumber_number, Option.bind_eq_bind, Option.bind_some,
        Option.pure_def, reads]
      cases getHdrValue E.mem E.pktFields h <;> rfl
    constructor
    · intro hhonoured
      have hold : old.toNat < 2 ^ 32 := by
        by_contra hbig
        obtain ⟨fields, hparse, -, hfinds⟩ := finds_packetOf hh (g := fun i =>
          if i = 23 then h.proto else 0) (n := 60 + off + h.len) (by omega) (by omega)
          (Or.inr (if_pos rfl))
        obtain ⟨n, -, hn⟩ := hhonoured _ _ hget ⟨fun _ => 0, fields, _⟩ _ (fun _ => 0) 0 h hload
          hparse hfinds
        -- the number is past all fields
        have hpast : HdrField.ofNumber (hdrFieldValue old h).toNat = none := by
          refine List.getElem?_eq_none ?_
          have hlength : HdrField.all.length = 28 := rfl
          rw [hlength, toNat_hdrFieldValue]
          omega
        unfold Env.operand at hn
        simp only [hpast, Option.bind_eq_bind, Option.bind_none, Option.map_none] at hn
        cases hn
      refine ⟨hold, (honoured_of_reads hh (reads 0) (hreads 0)).mp
        fun M before fields hparse hfinds => ?_⟩
      have hE := hhonoured _ _ hget ⟨fun _ => 0, fields, M⟩ before (fun _ => 0) 0 h hload hparse
        hfinds
      rwa [hoperand _ _ _ hold] at hE
    · rintro ⟨hold, hplace⟩ type value hread E before regs v h' hload' hparse hfinds
      rw [hget] at hread
      cases hread
      rw [hload] at hload'
      cases hload'
      rw [hoperand E regs v hold]
      exact (honoured_of_reads hh (reads v) (hreads v)).mpr hplace E.mem before E.pktFields hparse
        hfinds
  · have hreads : ∀ (M : Mem) fields ptr, fields h = some ptr →
        (getHdrValue M fields h).join.map BitVec.toNat = (readField M h ptr).map BitVec.toNat := by
      intro M fields ptr hptr
      have hvalue : getHdrValue M fields h = (readField M h ptr).map some := by
        unfold getHdrValue
        rw [hptr]
      rw [hvalue]
      cases readField M h ptr <;> rfl
    refine Iff.trans ⟨fun hkey => hkey h (jsonToLookupKey_singleton.mpr hlookup),
      fun hall h' hkey => ?_⟩ (honoured_of_reads hh _ hreads)
    rw [jsonToLookupKey_singleton, hlookup] at hkey
    cases hkey
    exact hall

/-- The type of service, declared where it lies. -/
def tosDefinition : List PacketFieldDefinitionContext :=
  [⟨"ipv4", [⟨"tos", "packet.data", .plus "15" "1"⟩]⟩]

/-- It is read where it lies. -/
theorem honoured_tos :
    ∃ F o, PacketFieldFactory.define tosDefinition = some F ∧
      F.getOperand (.fieldElem "ipv4" "tos") = some (.packetField o) ∧
      strToField o.value = some .ipv4Tos ∧ OperandHonoured o 0 ∧ KeyHonoured o := by
  have hF : PacketFieldFactory.define tosDefinition =
      some (PacketFieldFactory.new ++
        [("ipv4.tos", ⟨"XTRA_PKT_DATA", "15", "1", "ipv4.tos"⟩)]) := by
    decide +kernel
  have ho : PacketFieldFactory.getOperand
      (PacketFieldFactory.new ++ [("ipv4.tos", ⟨"XTRA_PKT_DATA", "15", "1", "ipv4.tos"⟩)])
      (.fieldElem "ipv4" "tos") =
        some (.packetField ⟨"XTRA_PKT_DATA", "15", "1", "ipv4.tos"⟩) := by
    decide +kernel
  have hload : strToField "ipv4.tos" = some .ipv4Tos := by decide +kernel
  have hplace : HdrField.place .ipv4Tos = some (.xtraPktData, decimal "15", decimal "1") := by
    decide +kernel
  obtain ⟨hoperand, hkey⟩ := honoured_iff hF ho hload 0
  exact ⟨_, _, hF, ho, hload, hoperand.mpr ⟨by decide, by decide, hplace⟩,
    hkey.mpr ⟨by decide, hplace⟩⟩

/-- The port that a TCP segment comes from, declared where the port that it
goes to lies. -/
def sportDefinition : List PacketFieldDefinitionContext :=
  [⟨"tcp", [⟨"sport", "packet.data", .plus "36" "2"⟩]⟩]

/-- A TCP segment from port 1 to port 0. -/
def sportPacket : Mem := packetOf (fun i => if i = 23 then 6 else if i = 35 then 1 else 0) 60

/-- The pointers of the TCP segment. -/
def sportFields : PktFields := sportPacket.packet.overlay .null .tcp

/-- **The declared offset is passed over**: the loader accepts the field, and
the dataplane reads the two bytes in front of the declared ones. -/
theorem not_honoured_sport :
    ∃ F o, PacketFieldFactory.define sportDefinition = some F ∧
      F.getOperand (.fieldElem "tcp" "sport") = some (.packetField o) ∧
      strToField o.value = some .tcpSport ∧ ¬ OperandHonoured o 0 := by
  have hF : PacketFieldFactory.define sportDefinition = some
      (PacketFieldFactory.new ++ [("tcp.sport", ⟨"XTRA_PKT_DATA", "36", "2", "tcp.sport"⟩)]) := by
    decide +kernel
  refine ⟨_, ⟨"XTRA_PKT_DATA", "36", "2", "tcp.sport"⟩, hF, by decide +kernel, by decide +kernel,
    fun hhonoured => ?_⟩
  have hparse : parsePktHeader sportPacket .null = some sportFields := by
    rw [parsePktHeader_eq]
    have hbranch : sportPacket.packet.branch = some .tcp := by decide +kernel
    rw [hbranch]
    rfl
  have hfinds : Finds sportPacket .tcpSport :=
    ⟨sportFields, 34, hparse, by decide +kernel, by decide +kernel⟩
  obtain ⟨n, hdeclared, hread⟩ := hhonoured .xfsmHdrField (hdrFieldValue 0 .tcpSport)
    (by decide +kernel) ⟨fun _ => 0, sportFields, sportPacket⟩ .null (fun _ => 0) 0 .tcpSport
    (by decide +kernel) hparse hfinds
  have hzero : packetInteger sportPacket.packet.mbuf.data (decimal "36") (decimal "2") =
      some 0 := by decide +kernel
  have hone : (Env.operand ⟨fun _ => 0, sportFields, sportPacket⟩ (fun _ => 0) .xfsmHdrField
      (hdrFieldValue 0 .tcpSport) 0).map BitVec.toNat = some 1 := by decide +kernel
  rw [hone, ← hdeclared, hzero] at hread
  cases hread

end Honoured

end FlowBlaze
