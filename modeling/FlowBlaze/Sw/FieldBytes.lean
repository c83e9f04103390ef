import FlowBlaze.Sw.HeaderPointers
import Mathlib.Tactic.IntervalCases
/-!
# What is read through a header pointer

`get_hdr_value` takes fields of one, two and four bytes for big-endian
numbers, and the timestamp for a word of the host. The first of six
bytes is shifted out of an `int`, so an Ethernet address has no value.
Nothing is read through a pointer into another packet.
-/

namespace FlowBlaze

open Sw

/-- **The big-endian number in so many bytes of a packet**, from a place
on, if the packet has them. -/
def packetInteger (data : List Byte) (off : ℕ) : ℕ → Option ℕ
  | 0 => some 0
  | len + 1 => (packetInteger data off len).bind fun n =>
    data[off + len]?.map fun b => n * 256 + b.toNat

namespace Sw

/-- **The big-endian number in the first bytes behind a pointer**, if they
are there. -/
def bigEndian (byte : ℕ → Option Byte) : ℕ → Option ℕ
  | 0 => some 0
  | len + 1 => (bigEndian byte len).bind fun n => (byte len).map fun b => n * 256 + b.toNat

section Numbers

variable {M : Mem} {off len n : ℕ} {byte : ℕ → Option Byte} {f : HdrField}

theorem packetInteger_isSome {data : List Byte} (hlen : off + len ≤ data.length) :
    ∃ n, packetInteger data off len = some n := by
  induction len with
  | zero => exact ⟨0, rfl⟩
  | succ len ih =>
    obtain ⟨n, hn⟩ := ih (by omega)
    obtain ⟨b, hb⟩ : ∃ b, data[off + len]? = some b := ⟨_, List.getElem?_eq_getElem (by omega)⟩
    exact ⟨n * 256 + b.toNat, by rw [packetInteger, hn, Option.bind_some, hb, Option.map_some]⟩

theorem bigEndian_data :
    bigEndian (M.byte (.data M.packet.number off)) len =
      packetInteger M.packet.mbuf.data off len := by
  induction len with
  | zero => rfl
  | succ len ih => rw [bigEndian, ih, byte_data, packetInteger]

/-- There is a number where there are bytes. -/
theorem bigEndian_isSome_iff :
    (bigEndian byte len).isSome = true ↔ ∀ i < len, (byte i).isSome = true := by
  induction len with
  | zero => exact iff_of_true rfl fun i hi => absurd hi (Nat.not_lt_zero i)
  | succ len ih =>
    rw [bigEndian]
    constructor
    · intro h i hi
      obtain ⟨n, hn⟩ := Option.isSome_iff_exists.mp h
      obtain ⟨before, hbefore, hn⟩ := Option.bind_eq_some_iff.mp hn
      obtain ⟨b, hb, -⟩ := Option.map_eq_some_iff.mp hn
      by_cases hlast : i = len
      · rw [hlast, hb]
        rfl
      · exact ih.mp (by rw [hbefore]; rfl) i (by omega)
    · intro h
      obtain ⟨before, hbefore⟩ := Option.isSome_iff_exists.mp
        (ih.mpr fun i hi => h i (Nat.lt_succ_of_lt hi))
      obtain ⟨b, hb⟩ := Option.isSome_iff_exists.mp (h len (Nat.lt_succ_self len))
      rw [hbefore, hb]
      rfl

theorem bigEndian_lt (h : bigEndian byte len = some n) : n < 256 ^ len := by
  induction len generalizing n with
  | zero =>
    cases h
    exact Nat.one_pos
  | succ len ih =>
    obtain ⟨before, hbefore, h⟩ := Option.bind_eq_some_iff.mp h
    obtain ⟨b, -, rfl⟩ := Option.map_eq_some_iff.mp h
    have hb := b.isLt
    have hlt := ih hbefore
    rw [Nat.pow_succ]
    omega

/-- A byte in front of some bits. -/
theorem toNat_or_shift {w : ℕ} {x : BitVec w} {b : Byte} {n : ℕ} (hx : x.toNat < 2 ^ n)
    (hw : n + 8 ≤ w) :
    (x ||| b.setWidth w <<< n).toNat = b.toNat * 2 ^ n + x.toNat ∧
      (x ||| b.setWidth w <<< n).toNat < 2 ^ (n + 8) := by
  have hb : b.toNat < 2 ^ 8 := b.isLt
  have hbw : b.toNat < 2 ^ w := hb.trans_le (Nat.pow_le_pow_right (by omega) (by omega))
  have hlt : b.toNat * 2 ^ n + 2 ^ n ≤ 2 ^ (n + 8) := by
    rw [Nat.pow_add, Nat.mul_comm (2 ^ n), ← Nat.succ_mul]
    exact Nat.mul_le_mul_right _ hb
  have hle : 2 ^ (n + 8) ≤ 2 ^ w := Nat.pow_le_pow_right (by omega) hw
  have hvalue : (x ||| b.setWidth w <<< n).toNat = b.toNat * 2 ^ n + x.toNat := by
    rw [BitVec.toNat_or, BitVec.toNat_shiftLeft, BitVec.toNat_setWidth, Nat.mod_eq_of_lt hbw,
      Nat.shiftLeft_eq, Nat.mod_eq_of_lt (by omega), Nat.or_comm, ← Nat.shiftLeft_eq,
      ← Nat.shiftLeft_add_eq_or_of_lt hx, Nat.shiftLeft_eq]
  exact ⟨hvalue, by omega⟩

theorem toNat_be16ptr2h (byte : ℕ → Option Byte) :
    (be16ptr2h byte).map BitVec.toNat =
      (byte 0).bind fun b0 => (byte 1).map fun b1 => b0.toNat * 256 + b1.toNat := by
  unfold be16ptr2h intShl
  cases byte 1 with
  | none => cases byte 0 <;> rfl
  | some b1 =>
    cases byte 0 with
    | none => rfl
    | some b0 =>
      have h1 : (b1.setWidth 32 : BitVec 32).toNat < 2 ^ 8 := by
        rw [BitVec.toNat_setWidth]
        have := b1.isLt
        omega
      obtain ⟨hvalue, hlt⟩ := toNat_or_shift (b := b0) h1 (by decide)
      simp only [Option.bind_eq_bind, Option.bind_some, Nat.reduceLT, if_true,
        BitVec.shiftLeft_zero,
        Option.pure_def, Option.map_some, BitVec.toNat_setWidth, Option.some.injEq]
      rw [hvalue, BitVec.toNat_setWidth]
      have h0 := b0.isLt
      have h1 := b1.isLt
      omega

theorem toNat_be32ptr2h (byte : ℕ → Option Byte) :
    (be32ptr2h byte).map BitVec.toNat =
      (byte 0).bind fun b0 => (byte 1).bind fun b1 => (byte 2).bind fun b2 =>
        (byte 3).map fun b3 =>
          ((b0.toNat * 256 + b1.toNat) * 256 + b2.toNat) * 256 + b3.toNat := by
  unfold be32ptr2h intShl
  cases byte 3 with
  | none => cases byte 0 <;> cases byte 1 <;> cases byte 2 <;> rfl
  | some b3 =>
    cases byte 2 with
    | none => cases byte 0 <;> cases byte 1 <;> rfl
    | some b2 =>
      cases byte 1 with
      | none => cases byte 0 <;> rfl
      | some b1 =>
        cases byte 0 with
        | none => rfl
        | some b0 =>
          have h3 : (b3.setWidth 32 : BitVec 32).toNat < 2 ^ 8 := by
            rw [BitVec.toNat_setWidth]
            have := b3.isLt
            omega
          obtain ⟨hvalue2, hlt2⟩ := toNat_or_shift (b := b2) h3 (by decide)
          obtain ⟨hvalue1, hlt1⟩ := toNat_or_shift (b := b1) hlt2 (by decide)
          obtain ⟨hvalue0, -⟩ := toNat_or_shift (b := b0) hlt1 (by decide)
          simp only [Option.bind_eq_bind, Option.bind_some, Nat.reduceLT, if_true,
            BitVec.shiftLeft_zero, Option.pure_def, Option.map_some, Option.some.injEq]
          rw [hvalue0, hvalue1, hvalue2, BitVec.toNat_setWidth]
          have h3 := b3.isLt
          omega

/-- A first byte of six is shifted too far. -/
theorem be64ptr2h_eq_none (byte : ℕ → Option Byte) : be64ptr2h byte = none := by
  unfold be64ptr2h
  have hrange : List.range 6 = [0, 1, 2, 3, 4, 5] := rfl
  rw [hrange, List.foldlM_cons]
  cases byte 0 with
  | none => rfl
  | some b => simp [intShl]

/-- **What the dataplane reads** of a field of up to four bytes. -/
theorem toNat_readField {ptr : Ptr} (hlen : f.len ≤ 4) :
    (readField M f ptr).map BitVec.toNat = bigEndian (M.byte ptr) f.len := by
  have hcases : f.len = 1 ∨ f.len = 2 ∨ f.len = 4 := by
    cases f <;> first | exact Or.inl rfl | exact Or.inr (Or.inl rfl) |
      exact Or.inr (Or.inr rfl) | (revert hlen; decide)
  unfold readField
  rcases hcases with hlen | hlen | hlen
  · rw [hlen]
    simp only [bigEndian, Option.map_map, Option.bind_some, Nat.zero_mul, Nat.zero_add]
    refine Option.map_congr fun b _ => ?_
    rw [Function.comp_apply, BitVec.toNat_setWidth]
    have := b.isLt
    omega
  · rw [hlen]
    simp only [Option.map_map]
    have hwide : (BitVec.toNat ∘ fun v : BitVec 16 => v.setWidth 64) = BitVec.toNat :=
      funext fun v => by
        rw [Function.comp_apply, BitVec.toNat_setWidth]
        have := v.isLt
        omega
    rw [hwide, toNat_be16ptr2h]
    simp only [bigEndian, Option.bind_some, Nat.zero_mul, Nat.zero_add]
    cases M.byte ptr 0 <;> rfl
  · rw [hlen]
    simp only [Option.map_map]
    have hwide : (BitVec.toNat ∘ fun v : BitVec 32 => v.setWidth 64) = BitVec.toNat :=
      funext fun v => by
        rw [Function.comp_apply, BitVec.toNat_setWidth]
        have := v.isLt
        omega
    rw [hwide, toNat_be32ptr2h]
    simp only [bigEndian, Option.bind_some, Nat.zero_mul, Nat.zero_add]
    cases M.byte ptr 0 with
    | none => rfl
    | some b0 =>
      cases M.byte ptr 1 with
      | none => rfl
      | some b1 => cases M.byte ptr 2 <;> rfl

/-- The same, of a field in the packet's data. -/
theorem toNat_readField_data (hlen : f.len ≤ 4) (off : ℕ) :
    (readField M f (.data M.packet.number off)).map BitVec.toNat =
      packetInteger M.packet.mbuf.data off f.len :=
  (toNat_readField hlen).trans bigEndian_data

theorem readField_eq_none (hlen : f.len = 6) (ptr : Ptr) : readField M f ptr = none := by
  unfold readField
  rw [hlen]
  exact be64ptr2h_eq_none _

/-- The parser's pointers after a packet. -/
theorem overlay_of_parse {before fields : PktFields} (h : parsePktHeader M before = some fields) :
    ∃ b, M.packet.branch = some b ∧ fields = M.packet.overlay before b := by
  rw [parsePktHeader_eq] at h
  obtain ⟨b, hb, rfl⟩ := Option.map_eq_some_iff.mp h
  exact ⟨b, hb, rfl⟩

end Numbers

/-! ## The timestamp -/

/-- A word, read byte by byte. -/
theorem hostWord_hostByte (w : Word64) : hostWord (fun i => some (hostByte w i)) = some w := by
  unfold hostWord hostByte
  simp only [List.range_succ, List.range_zero, List.nil_append, List.cons_append,
    List.foldlM_cons, List.foldlM_nil, Option.pure_def, Option.bind_eq_bind, Option.bind_some]
  congr 1
  ext i hi
  simp only [BitVec.getElem_or, BitVec.getElem_shiftLeft, BitVec.getElem_setWidth,
    BitVec.getLsbD_extractLsb']
  interval_cases i <;> simp

theorem hostWord_congr {byte byte' : ℕ → Option Byte} (h : ∀ i < 8, byte i = byte' i) :
    hostWord byte = hostWord byte' := by
  unfold hostWord
  simp only [List.range_succ, List.range_zero, List.nil_append, List.cons_append,
    List.foldlM_cons, List.foldlM_nil, h 0 (by omega), h 1 (by omega), h 2 (by omega),
    h 3 (by omega), h 4 (by omega), h 5 (by omega), h 6 (by omega), h 7 (by omega)]

/-- **The timestamp** is read as it is. -/
theorem readField_timestamp (M : Mem) :
    readField M .xfsmTimestamp (.timestamp M.packet.number) = some M.packet.mbuf.timestamp := by
  have hbyte : ∀ i < 8, M.byte (.timestamp M.packet.number) i =
      some (hostByte M.packet.mbuf.timestamp i) := fun i hi => if_pos ⟨rfl, hi⟩
  exact (hostWord_congr hbyte).trans (hostWord_hostByte M.packet.mbuf.timestamp)

/-! ## Other packets -/

section Others

variable {b : Branch}

/-- A pointer into the packet of that number. -/
def Ptr.Into (n : ℕ) : Ptr → Prop
  | .inPort => False
  | .data packet _ => packet = n
  | .userdata packet _ => packet = n
  | .timestamp packet => packet = n

/-- Nothing is read through a pointer into another packet. -/
theorem readField_of_stale {M : Mem} {ptr : Ptr} (f : HdrField) (hport : ptr ≠ .inPort)
    (hstale : ¬ptr.Into M.packet.number) : readField M f ptr = none := by
  have hbyte : M.byte ptr = fun _ => none := by
    funext i
    cases ptr with
    | inPort => exact absurd rfl hport
    | data packet off => exact if_neg hstale
    | userdata packet off => exact if_neg fun h => hstale h.1
    | timestamp packet => exact if_neg fun h => hstale h.1
  unfold readField
  rw [hbyte]
  cases f <;> rfl

/-- What the parser sets points into the packet, or is `in_port`. -/
theorem into_of_assigned {p : Packet} {f : HdrField} {ptr : Ptr}
    (h : p.assigned b f = some (some ptr)) : f = .xfsmInPort ∨ ptr.Into p.number := by
  by_cases hf : f.optional = true
  · rw [assigned_eq hf] at h
    obtain ⟨off, -, h⟩ := Option.map_eq_some_iff.mp h
    obtain ⟨n, rfl, rfl⟩ := Option.map_eq_some_iff.mp h
    exact .inr rfl
  · cases f with
    | xfsmInPort => exact .inl rfl
    | xfsmMetadata0 | xfsmMetadata1 =>
      unfold Packet.assigned at h
      simp only [Option.some.injEq] at h
      split at h
      · cases h
        exact .inr rfl
      · cases h
    | srcMac | dstMac | ethType | ipv4Dst | ipv4Src | ipv4Proto | ipv4Tos | xfsmTimestamp =>
      cases h
      exact .inr rfl
    | _ => exact absurd rfl hf

end Others

end Sw

end FlowBlaze
