import FlowBlaze.Hw.InsertedBytes
import Mathlib.Data.List.Basic
/-!
# Packets as beats

The bytes of a packet are those of its beats that are kept, in order. A
packet that is to get a field comes with its length announced and the
operation presented with its first beat; it leaves as beats of the bytes
with the field among them.
-/

namespace FlowBlaze

namespace Hw

open Common

/-- The bytes of a beat that are kept. -/
def keptBytes (a : Axis) : List (BitVec 8) :=
  ((List.range 32).filter fun i => a.tkeep.getLsbD i).map (byteOf a.tdata)

/-- The length that a beat announces, `tuser(15 downto 0)`. -/
def announced (a : Axis) : ℕ := (a.tuser.extractLsb' 0 16).toNat

/-- The beats that so many bytes take. -/
def beatsFor (length : ℕ) : ℕ := (length + 31) / 32

/-- The keep bits of so many bytes, or of all. -/
def keepBits (m : ℕ) : BitVec 32 := BitVec.allOnes 32 >>> (32 - m)

/-- **The beats of a packet**, from one on: each keeps what is left of the
length, the last one ends it, and the operation is presented with the first
one only. -/
def Beats (length : ℕ) : ℕ → List ModifyInput → Prop
  | b, [] => b = beatsFor length
  | b, x :: xs => x.sAxis.tkeep = keepBits (length - 32 * b) ∧
      x.sAxis.tlast = decide (b + 1 = beatsFor length) ∧ x.enable = decide (b = 0) ∧
      Beats length (b + 1) xs

/-- **A packet that is to get a field**: of two beats at least, and with a
size and an offset that stand for bytes of it. -/
structure Packet where
  first : ModifyInput
  later : List ModifyInput
  two : 33 ≤ announced first.sAxis
  size : first.inSize ≠ 0b00
  offset : first.inOffset.toNat ≤ announced first.sAxis
  beats : Beats (announced first.sAxis) 0 (first :: later)

namespace Packet

variable (p : Packet)

/-- The cycles in which it comes in. -/
def inputs : List ModifyInput := p.first :: p.later

/-- Its length. -/
def length : ℕ := announced p.first.sAxis

/-- Where its field begins. -/
def place : ℕ := p.first.request.offset

/-- How long its field is. -/
def count : ℕ := p.first.request.bytes

/-- The bytes of its field, the least significant one first. -/
def fieldBytes : List (BitVec 8) := (List.range p.count).map (byteOf p.first.inField)

/-- Its bytes. -/
def bytes : List (BitVec 8) := p.inputs.flatMap fun x => keptBytes x.sAxis

/-- **Its bytes with the field among them.** -/
def result : List (BitVec 8) := p.bytes.take p.place ++ p.fieldBytes ++ p.bytes.drop p.place

end Packet

/-- **A packet leaves with exactly the requested bytes inserted**: with these
bytes, the new length announced, and as many beats as it takes, of which the
last one ends it. -/
structure Inserted (p : Packet) (ys : List Axis) : Prop where
  bytes : ys.flatMap keptBytes = p.result
  announced : ys.head?.map announced = some (p.length + p.count)
  beats : ys.length = beatsFor (p.length + p.count)
  tlast : ∀ b y, ys[b]? = some y → y.tlast = decide (b + 1 = ys.length)

/-! ## The bytes of beats -/

section Bytes

variable {m b i j : ℕ} {a : Axis}

theorem getLsbD_keepBits (hi : i < 32) : (keepBits m).getLsbD i = decide (i < m) := by
  unfold keepBits
  rw [BitVec.getLsbD_ushiftRight, BitVec.getLsbD_allOnes]
  exact decide_eq_decide.mpr (by omega)

/-- **Keep bits of a number of bytes** keep the first ones. -/
theorem keptBytes_of_tkeep (h : a.tkeep = keepBits m) :
    keptBytes a = (List.range (min m 32)).map (byteOf a.tdata) := by
  unfold keptBytes
  have hsplit : List.range 32 =
      List.range (min m 32) ++ (List.range (32 - min m 32)).map (min m 32 + ·) := by
    rw [← List.range_add]
    exact congrArg List.range (by omega)
  have hlow : (List.range (min m 32)).filter (fun i => a.tkeep.getLsbD i) =
      List.range (min m 32) := by
    refine List.filter_eq_self.mpr fun i hi => ?_
    have := List.mem_range.mp hi
    rw [h, getLsbD_keepBits (by omega)]
    exact decide_eq_true (by omega)
  have hhigh : ((List.range (32 - min m 32)).map (min m 32 + ·)).filter
      (fun i => a.tkeep.getLsbD i) = [] := by
    refine List.filter_eq_nil_iff.mpr fun i hi => ?_
    obtain ⟨k, hk, rfl⟩ := List.mem_map.mp hi
    have := List.mem_range.mp hk
    rw [h, getLsbD_keepBits (by omega)]
    exact fun hlt => absurd (of_decide_eq_true hlt) (by omega)
  rw [hsplit, List.filter_append, hlow, hhigh, List.append_nil]

theorem length_keptBytes (h : a.tkeep = keepBits m) : (keptBytes a).length = min m 32 := by
  rw [keptBytes_of_tkeep h, List.length_map, List.length_range]

theorem keptBytes_getElem? (h : a.tkeep = keepBits m) (hi : i < m) (hlt : i < 32) :
    (keptBytes a)[i]? = some (byteOf a.tdata i) := by
  rw [keptBytes_of_tkeep h, List.getElem?_map, List.getElem?_range (by omega)]
  rfl

end Bytes

/-! ## The bytes of a packet -/

section Packets

variable {length b i j : ℕ} {x : ModifyInput} {xs : List ModifyInput}

theorem Beats.length_eq (h : Beats length b xs) : xs.length + b = beatsFor length := by
  induction xs generalizing b with
  | nil =>
    rw [List.length_nil, Nat.zero_add]
    exact h
  | cons x xs ih =>
    have := ih h.2.2.2
    rw [List.length_cons]
    omega

/-- The beats from one on keep what is left of the length. -/
theorem Beats.length_bytes (h : Beats length b xs) :
    (xs.flatMap fun x => keptBytes x.sAxis).length = length - 32 * b := by
  induction xs generalizing b with
  | nil =>
    have hb : b = beatsFor length := h
    unfold beatsFor at hb
    rw [List.flatMap_nil, List.length_nil]
    omega
  | cons x xs ih =>
    rw [List.flatMap_cons, List.length_append, length_keptBytes h.1, ih h.2.2.2]
    omega

/-- **What is left of a packet** after a number of beats: the beats, and the
bytes that they keep. -/
structure Packet.Left (p : Packet) (b : ℕ) (xs : List ModifyInput) : Prop where
  beats : Beats p.length b xs
  bytes : p.bytes.drop (32 * b) = xs.flatMap fun x => keptBytes x.sAxis

namespace Packet

variable {p : Packet}

theorem left_inputs : p.Left 0 p.inputs := ⟨p.beats, rfl⟩

theorem length_bytes : p.bytes.length = p.length := p.beats.length_bytes

/-- A beat comes in. -/
theorem Left.tail (h : p.Left b (x :: xs)) : p.Left (b + 1) xs := by
  refine ⟨h.beats.2.2.2, ?_⟩
  have hlen := length_keptBytes h.beats.1
  rw [show 32 * (b + 1) = 32 * b + 32 by omega, ← List.drop_drop, h.bytes, List.flatMap_cons]
  rcases Nat.lt_or_ge (p.length - 32 * b) 32 with hlt | hge
  · have hnil : xs = [] := by
      have hcount := h.beats.2.2.2.length_eq
      unfold beatsFor at hcount
      exact List.eq_nil_of_length_eq_zero (by omega)
    rw [hnil, List.flatMap_nil, List.append_nil]
    exact List.drop_eq_nil_of_le (by omega)
  · exact List.drop_left' (by omega)

/-- **A beat's bytes** are bytes of its packet. -/
theorem Left.byte (h : p.Left b (x :: xs)) (hi : i < 32) (hlt : 32 * b + i < p.length) :
    p.bytes[32 * b + i]? = some (byteOf x.sAxis.tdata i) := by
  rw [← List.getElem?_drop, h.bytes, List.flatMap_cons, List.getElem?_append_left]
  · exact keptBytes_getElem? h.beats.1 (by omega) hi
  · rw [length_keptBytes h.beats.1]
    omega

theorem length_fieldBytes : p.fieldBytes.length = p.count := by
  unfold fieldBytes
  rw [List.length_map, List.length_range]

theorem place_le : p.place ≤ p.bytes.length := by
  rw [length_bytes]
  exact p.offset

theorem length_result : p.result.length = p.length + p.count := by
  have := place_le (p := p)
  have hlen := length_bytes (p := p)
  unfold result
  rw [List.length_append, List.length_append, List.length_take, List.length_drop,
    length_fieldBytes]
  omega

/-- A byte before the field. -/
theorem result_before (h : j < p.place) : p.result[j]? = p.bytes[j]? := by
  have := place_le (p := p)
  unfold result
  rw [List.append_assoc, List.getElem?_append_left (by rw [List.length_take]; omega),
    List.getElem?_take_of_lt h]

/-- A byte of the field. -/
theorem result_within (hi : i < p.count) (hj : j = p.place + i) :
    p.result[j]? = some (byteOf p.first.inField i) := by
  have htake : (p.bytes.take p.place).length = p.place :=
    List.length_take_of_le place_le
  unfold result
  rw [List.append_assoc, List.getElem?_append_right (by omega), htake, hj,
    Nat.add_sub_cancel_left, List.getElem?_append_left (by rw [length_fieldBytes]; omega)]
  unfold fieldBytes
  rw [List.getElem?_map, List.getElem?_range hi]
  rfl

/-- A byte behind the field. -/
theorem result_behind (h : p.place ≤ i) (hj : j = i + p.count) :
    p.result[j]? = p.bytes[i]? := by
  have htake : (p.bytes.take p.place ++ p.fieldBytes).length = p.place + p.count := by
    rw [List.length_append, List.length_take_of_le place_le, length_fieldBytes]
  unfold result
  rw [List.getElem?_append_right (by omega), htake, hj, List.getElem?_drop]
  exact congrArg (p.bytes[·]?) (by omega)

/-- **A beat with the field at its place has bytes of the result.** -/
theorem result_of_inserted {carry : BitVec 32} (h : p.Left b (x :: xs))
    (hi : i < 32) (hlt : 32 * b + i < p.length + p.count)
    (hcarry : (p.place : ℤ) - 32 * b < 0 → ∀ k < 4,
      p.bytes[32 * b - 4 + k]? = some (byteOf carry k)) (hfour : p.count ≤ 4) :
    p.result[32 * b + i]? = some (inserted (p.place - 32 * b) p.count x.sAxis.tdata
      p.first.inField carry i) := by
  have hplace := place_le (p := p)
  rw [length_bytes] at hplace
  rcases Nat.lt_or_ge (32 * b + i) p.place with hbefore | hge
  · rw [result_before hbefore, inserted_before (by omega)]
    exact h.byte hi (by omega)
  obtain ⟨k, hk⟩ := Nat.exists_eq_add_of_le hge
  rcases Nat.lt_or_ge k p.count with hin | hbehind
  · rw [result_within hin hk, inserted_within (j := k) (by omega) (by omega) (by omega)]
  rcases Nat.lt_or_ge i p.count with hmoved | hsame
  · rw [result_behind (i := 32 * b - 4 + (4 + i - p.count)) (by omega) (by omega),
      inserted_carried (j := 4 + i - p.count) (by omega) hmoved (by omega)]
    exact hcarry (by omega) _ (by omega)
  · rw [result_behind (i := 32 * b + (i - p.count)) (by omega) (by omega),
      inserted_behind (j := i - p.count) (by omega) (by omega)]
    exact h.byte (by omega) (by omega)

/-! ## Beats that leave -/

/-- **A beat that is right**: it keeps what is left of the new length, and has
these bytes. -/
structure BeatOut (p : Packet) (b : ℕ) (y : Axis) : Prop where
  tlast : y.tlast = decide (b + 1 = beatsFor (p.length + p.count))
  announced : b = 0 → announced y = p.length + p.count
  tkeep : y.tkeep = keepBits (p.length + p.count - 32 * b)
  tdata : ∀ i < 32, 32 * b + i < p.length + p.count →
    p.result[32 * b + i]? = some (byteOf y.tdata i)

/-- The beats from one on are right. -/
def LeavesFrom (p : Packet) : ℕ → List Axis → Prop
  | b, [] => b = beatsFor (p.length + p.count)
  | b, y :: ys => p.BeatOut b y ∧ p.LeavesFrom (b + 1) ys

variable {y : Axis} {ys : List Axis}

/-- A beat's bytes are the next ones of the result. -/
theorem BeatOut.keptBytes_eq (h : p.BeatOut b y) :
    keptBytes y = (p.result.drop (32 * b)).take 32 := by
  refine List.ext_getElem? fun i => ?_
  rcases Nat.lt_or_ge i 32 with hi | hi
  · rw [List.getElem?_take_of_lt hi, List.getElem?_drop]
    rcases Nat.lt_or_ge (32 * b + i) (p.length + p.count) with hlt | hge
    · rw [h.tdata i hi hlt, keptBytes_getElem? h.tkeep (by omega) hi]
    · rw [List.getElem?_eq_none (by rw [length_keptBytes h.tkeep]; omega),
        List.getElem?_eq_none (by rw [length_result]; omega)]
  · rw [List.getElem?_eq_none (by rw [length_keptBytes h.tkeep]; omega),
      List.getElem?_eq_none (by rw [List.length_take]; omega)]

theorem LeavesFrom.bytes (h : p.LeavesFrom b ys) :
    ys.flatMap keptBytes = p.result.drop (32 * b) := by
  induction ys generalizing b with
  | nil =>
    have hb : b = beatsFor (p.length + p.count) := h
    unfold beatsFor at hb
    rw [List.flatMap_nil, List.drop_eq_nil_of_le (by rw [length_result]; omega)]
  | cons y ys ih =>
    rw [List.flatMap_cons, h.1.keptBytes_eq, ih h.2, show 32 * (b + 1) = 32 * b + 32 by omega,
      ← List.drop_drop, List.take_append_drop]

theorem LeavesFrom.length_eq (h : p.LeavesFrom b ys) :
    ys.length + b = beatsFor (p.length + p.count) := by
  induction ys generalizing b with
  | nil =>
    rw [List.length_nil, Nat.zero_add]
    exact h
  | cons y ys ih =>
    have := ih h.2
    rw [List.length_cons]
    omega

theorem LeavesFrom.tlast (h : p.LeavesFrom b ys) (hy : ys[i]? = some y) :
    y.tlast = decide (b + i + 1 = beatsFor (p.length + p.count)) := by
  induction ys generalizing b i with
  | nil => cases hy
  | cons y' ys ih =>
    cases i with
    | zero =>
      cases hy
      exact h.1.tlast
    | succ i =>
      rw [ih h.2 hy]
      exact decide_eq_decide.mpr (by omega)

/-- **Beats that are all right** are those of the packet with the field
inserted. -/
theorem inserted_of_leavesFrom (h : p.LeavesFrom 0 ys) : Inserted p ys := by
  have hlen := h.length_eq
  refine ⟨by simpa using h.bytes, ?_, hlen, fun b y hy => ?_⟩
  · cases ys with
    | nil =>
      have := p.two
      rw [List.length_nil] at hlen
      unfold beatsFor length at hlen
      omega
    | cons y ys => exact congrArg some (h.1.announced rfl)
  · rw [h.tlast hy]
    exact decide_eq_decide.mpr (by omega)

end Packet

end Packets

end Hw

end FlowBlaze
