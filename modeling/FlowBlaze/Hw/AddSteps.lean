import FlowBlaze.Hw.Beats
/-!
# Steps within a packet

Between two packets the machine is idle. Within one its registers have the
request, the counter is that of the beats that have come in, and the last
bytes of the beat before are carried; of a packet that suits, every beat
that leaves is then right.
-/

namespace FlowBlaze

namespace Hw

open Common

/-! ## The condition -/

/-- The bytes of a packet's last beat. -/
def lastBytes (length : ℕ) : ℕ := if length % 32 = 0 then 32 else length % 32

theorem lastBytes_eq (length : ℕ) : lastBytes length = (length + 31) % 32 + 1 := by
  unfold lastBytes
  split_ifs <;> omega

/-- **A packet that the machine can insert into**: the field is at a place
that the branches are right about, and it fits the last beat with a byte to
spare, or is one of four bytes before the last four of full beats. -/
structure Packet.Suits (p : Packet) : Prop where
  two : p.count = 2 → p.place % 32 ≠ 1 ∧ p.place % 32 ≠ 31
  four : p.count = 4 → p.place % 32 = 0 ∨ 3 < p.place % 32
  room : lastBytes p.length + p.count ≤ 31 ∨
    (p.length % 32 = 0 ∧ p.count = 4 ∧ p.place + 4 ≤ p.length)

/-- What has come in of a packet: where its field begins, how many beats,
and the last four bytes of the last one. -/
structure Underway where
  offset : ℕ
  came : ℕ
  carry : BitVec 32

/-- Another beat comes in. -/
def Underway.following (u : Underway) (x : ModifyInput) : Underway :=
  if x.enable then ⟨x.inOffset.toNat, 1, AddField.tempTdataNext x⟩
  else ⟨u.offset, u.came + 1, AddField.tempTdataNext x⟩

namespace AddField

/-- **The bytes to carry are still there**, unless the beat is a packet's
first one, or the field has not begun before it. -/
def CarryKept (M : AddField) (u : Underway) : Prop :=
  M.state = .idle ∨ 32 * u.came ≤ u.offset ∨ M.tempTdata = u.carry

/-- The machine after a reset. -/
def AfterReset (M : AddField) : Prop := M.state = .idle ∧ M.counter = 0

/-! ## The parts of a beat that leaves -/

section Parts

variable {M : AddField} {x : ModifyInput} {p : Packet} {b m n k : ℕ} {rest : List ModifyInput}

theorem keepBits_of_ge (h : 32 ≤ m) : keepBits m = 0xffffffff := by
  unfold keepBits
  rw [Nat.sub_eq_zero_of_le h]
  rfl

/-- Keep bits that are shifted keep as many bytes more. -/
theorem getLsbD_shifted {i : ℕ} (hk : k + n = 32) (hi : i < 32) :
    ((keepBits m).extractLsb' 0 k ++ BitVec.allOnes n).getLsbD i =
      (keepBits (m + n)).getLsbD i := by
  rw [BitVec.getLsbD_append, getLsbD_keepBits hi]
  by_cases hin : i < n
  · rw [if_pos hin, BitVec.getLsbD_allOnes, decide_eq_true hin, decide_eq_true (by omega)]
  · rw [if_neg hin, BitVec.getLsbD_extractLsb', Nat.zero_add, getLsbD_keepBits (by omega),
      decide_eq_true (by omega), Bool.true_and]
    exact decide_eq_decide.mpr (by omega)

/-- What the machine works with is the request of a packet. -/
structure Knows (M : AddField) (p : Packet) (x : ModifyInput) : Prop where
  offset : M.offset x = p.first.inOffset
  size : M.size x = p.first.inSize
  field : M.field x = p.first.inField

/-- With the first beat the request is presented. -/
theorem knows_first : M.Knows p p.first := by
  have henable : p.first.enable = true := p.beats.2.2.1
  exact ⟨if_pos henable, if_pos henable, if_pos henable⟩

/-- The bytes of a size, as they are added. -/
theorem toNat_add_size {resto : BitVec 6} (size : BitVec 2) (h : resto.toNat ≤ 32) :
    (resto + size.setWidth 6 +
      (BitVec.ofBool (size.getLsbD 1 && size.getLsbD 0)).setWidth 6).toNat =
      resto.toNat + sizeBytes size := by
  rcases sizeBytes_cases size with ⟨rfl, hn⟩ | ⟨rfl, hn⟩ | ⟨rfl, hn⟩ | ⟨rfl, hn⟩ <;>
    rw [hn] <;> simp [BitVec.toNat_add] <;> omega

/-- **The size of a packet's last beat with the field**, as it is computed. -/
theorem toNat_pktSize :
    (pktSize p.first.sAxis.tuser p.first.inSize).toNat = lastBytes p.length + p.count := by
  have hlow : (p.first.sAxis.tuser.extractLsb' 0 5).toNat = p.length % 32 := by
    unfold Packet.length announced
    rw [BitVec.extractLsb'_toNat, BitVec.extractLsb'_toNat, Nat.shiftRight_zero]
    omega
  have hconcat : (0#1 ++ p.first.sAxis.tuser.extractLsb' 0 5).toNat = p.length % 32 := by
    rw [BitVec.toNat_append, hlow]
    simp
  have hresto : (if 0#1 ++ p.first.sAxis.tuser.extractLsb' 0 5 = 0b000000 then 0b100000
      else 0#1 ++ p.first.sAxis.tuser.extractLsb' 0 5).toNat = lastBytes p.length := by
    unfold lastBytes
    by_cases hzero : 0#1 ++ p.first.sAxis.tuser.extractLsb' 0 5 = 0b000000
    · rw [if_pos hzero, if_pos (by rw [← hconcat, hzero]; rfl)]
      rfl
    · have hne : p.length % 32 ≠ 0 := fun h => hzero (BitVec.eq_of_toNat_eq (hconcat.trans h))
      rw [if_neg hzero, if_neg hne, hconcat]
  have hle : lastBytes p.length ≤ 32 := by
    rw [lastBytes_eq]
    omega
  rw [← hresto] at hle ⊢
  exact toNat_add_size _ hle

/-- **The data of a beat that passes** are bytes of the result. -/
theorem tdata_of_knows (h : M.Knows p x) (hcounter : M.counter = 32 * b)
    (hstate : M.state ≠ .extraSlot) (hsuits : p.Suits) (hleft : p.Left b (x :: rest))
    (hcarry : (p.place : ℤ) - 32 * b < 0 → ∀ k < 4,
      p.bytes[32 * b - 4 + k]? = some (byteOf M.tempTdata k)) {i : ℕ} (hi : i < 32)
    (hlt : 32 * b + i < p.length + p.count) :
    p.result[32 * b + i]? = some (byteOf (M.tdata x) i) := by
  have hr : M.relativeOffset x = p.place - 32 * b := by
    unfold AddField.relativeOffset
    rw [h.offset, hcounter]
    rfl
  have hindex : 0 ≤ M.relativeOffset x → M.relativeOffset x < 32 →
      (M.index x : ℤ) = M.relativeOffset x := fun hpos hlt => by
    have hmod : M.index x = p.place % 32 := by
      unfold AddField.index
      rw [h.offset, BitVec.extractLsb'_toNat, Nat.shiftRight_zero]
      rfl
    rw [hr] at hpos hlt ⊢
    rw [hmod]
    omega
  have hsize := sizeBytes_cases p.first.inSize
  have hne := p.size
  have hcount : sizeBytes p.first.inSize = p.count := rfl
  have htwo := hsuits.two
  have hfour := hsuits.four
  have hplace : Inserts (sizeBytes p.first.inSize) (M.relativeOffset x) := by
    rw [hr, hcount]
    unfold Inserts
    rcases hsize with ⟨-, hn⟩ | ⟨-, hn⟩ | ⟨-, hn⟩ | ⟨hzero, -⟩
    · omega
    · have := htwo hn
      omega
    · have := hfour hn
      omega
    · exact absurd hzero hne
  have hle : p.count ≤ 4 := by
    rw [← hcount]
    omega
  rw [p.result_of_inserted hleft hi hlt hcarry hle]
  unfold AddField.tdata
  rw [if_neg hstate, h.size, h.field, byteOf_addData hplace hindex hi, hr, hcount]

end Parts

/-! ## The clock -/

section Clock

variable {M : AddField} {x : ModifyInput}

theorem comesIn_of_ne (h : M.state ≠ .extraSlot) : M.comesIn x = x.transfers := by
  unfold comesIn sAxisTready
  rw [if_neg h]
  rfl

theorem goesOut_of_ne (h : M.state ≠ .extraSlot) : M.goesOut x = x.transfers := by
  unfold goesOut tvalid
  rw [if_neg h]
  rfl

theorem comesIn_of_extraSlot (h : M.state = .extraSlot) : M.comesIn x = false := by
  unfold comesIn sAxisTready
  rw [if_pos h, Bool.and_false]

theorem goesOut_of_extraSlot (h : M.state = .extraSlot) : M.goesOut x = x.mAxisTready := by
  unfold goesOut tvalid
  rw [if_pos h, Bool.true_and]

/-- Without a transfer only the carried bytes change. -/
theorem clock_stays (hstate : M.state ≠ .extraSlot) (h : x.transfers = false) :
    M.clock x = { M with tempTdata := tempTdataNext x } := by
  unfold clock nextCounter
  cases hs : M.state with
  | extraSlot => exact absurd hs hstate
  | idle => simp [h]
  | waitExtraSlot => simp [h]
  | waitEop => simp [h]

/-- The first beat, of at least two. -/
theorem clock_first (hstate : M.state = .idle) (h : x.transfers = true)
    (hlast : x.sAxis.tlast = false) :
    M.clock x =
      let next : AddField :=
        ⟨.waitEop, M.counter + 32, x.inOffset, x.inSize, x.inField, M.byteCount, tempTdataNext x⟩
      if 31 < (pktSize x.sAxis.tuser (M.size x)).toNat then
        { next with
          byteCount := (pktSize x.sAxis.tuser (M.size x)).extractLsb' 0 3
          state := .waitExtraSlot }
      else next := by
  unfold clock nextCounter
  simp [hstate, h, hlast]

/-- A beat that is not the last one. -/
theorem clock_passes (hstate : M.state = .waitEop ∨ M.state = .waitExtraSlot)
    (h : x.transfers = true) (hlast : x.sAxis.tlast = false) :
    M.clock x = { M with counter := M.counter + 32, tempTdata := tempTdataNext x } := by
  unfold clock nextCounter
  rcases hstate with hs | hs <;> simp [h, hs, hlast]

/-- The last beat, when nothing is left over. -/
theorem clock_ends (hstate : M.state = .waitEop) (h : x.transfers = true)
    (hlast : x.sAxis.tlast = true) :
    M.clock x = { M with counter := 0, tempTdata := tempTdataNext x, state := .idle } := by
  unfold clock nextCounter
  simp [h, hstate, hlast]

/-- The last beat before the extra slot. -/
theorem clock_fills (hstate : M.state = .waitExtraSlot) (h : x.transfers = true)
    (hlast : x.sAxis.tlast = true) :
    M.clock x = { M with counter := 0, tempTdata := tempTdataNext x, state := .extraSlot } := by
  unfold clock nextCounter
  simp [h, hstate, hlast]

/-- The extra slot, until it leaves. -/
theorem clock_extraSlot (hstate : M.state = .extraSlot) :
    M.clock x = { M with
      counter := 0, tempTdata := tempTdataNext x
      state := if x.mAxisTready then .idle else .extraSlot } := by
  unfold clock nextCounter
  cases x.mAxisTready <;> simp [hstate]

end Clock

/-! ## Within a packet -/

/-- A packet that needs the extra slot, of four bytes. -/
def Full (p : Packet) : Prop := p.length % 32 = 0 ∧ p.count = 4 ∧ p.place + 4 ≤ p.length

/-- What the registers have of a packet, of which beats have come in. -/
structure Holds (M : AddField) (u : Underway) (p : Packet) (b : ℕ) : Prop where
  begun : 1 ≤ b
  offset : M.regOffset = p.first.inOffset
  size : M.regSize = p.first.inSize
  field : M.regField = p.first.inField
  came : u.came = b
  place : u.offset = p.place
  carry : 32 * b ≤ p.length → ∀ k < 4, p.bytes[32 * b - 4 + k]? = some (byteOf u.carry k)

/-- **There is more of a packet to come in.** -/
structure Passing (M : AddField) (u : Underway) (p : Packet) (b : ℕ) : Prop
    extends M.Holds u p b where
  more : b < beatsFor p.length
  counter : M.counter = 32 * b
  state : (M.state = .waitEop ∧ lastBytes p.length + p.count ≤ 31) ∨
    (M.state = .waitExtraSlot ∧ M.byteCount = 4 ∧ Full p)

/-- **All of a packet is in**, and four bytes of it are still to leave. -/
structure InSlot (M : AddField) (u : Underway) (p : Packet) : Prop
    extends M.Holds u p (beatsFor p.length) where
  counter : M.counter = 0
  state : M.state = .extraSlot
  byteCount : M.byteCount = 4
  full : Full p

section Within

variable {M : AddField} {u : Underway} {x : ModifyInput} {p : Packet} {b : ℕ}
  {rest : List ModifyInput}

theorem Holds.knows (h : M.Holds u p b) (henable : x.enable = false) : M.Knows p x := by
  have hne : ¬x.enable = true := fun h => by rw [henable] at h; cases h
  exact ⟨(if_neg hne).trans h.offset, (if_neg hne).trans h.size, (if_neg hne).trans h.field⟩

theorem Passing.ne_extraSlot (h : M.Passing u p b) : M.state ≠ .extraSlot := by
  rcases h.state with ⟨hs, -⟩ | ⟨hs, -⟩ <;> rw [hs] <;> exact fun h => by cases h

theorem Passing.ne_idle (h : M.Passing u p b) : M.state ≠ .idle := by
  rcases h.state with ⟨hs, -⟩ | ⟨hs, -⟩ <;> rw [hs] <;> exact fun h => by cases h

/-- **The last four bytes of a beat** are to be carried. -/
theorem carry_next (hleft : p.Left b (x :: rest)) (hle : 32 * (b + 1) ≤ p.length) {k : ℕ}
    (hk : k < 4) :
    p.bytes[32 * (b + 1) - 4 + k]? = some (byteOf (tempTdataNext x) k) := by
  have hbyte := hleft.byte (i := 28 + k) (by omega) (by omega)
  unfold tempTdataNext
  rw [show 32 * (b + 1) - 4 + k = 32 * b + (28 + k) by omega, hbyte,
    byteOf_extractLsb' (k := 28) _ rfl (by omega)]

/-- A first beat leaves the machine in its packet. -/
theorem passing_first (h : M.AfterReset) (hsuits : p.Suits) (hin : p.first.transfers = true) :
    (M.clock p.first).Passing (u.following p.first) p 1 := by
  have htwo : 33 ≤ p.length := p.two
  have hmore : 1 < beatsFor p.length := by
    unfold beatsFor
    omega
  have hlast : p.first.sAxis.tlast = false :=
    p.beats.2.1.trans (decide_eq_false (by unfold Packet.length at hmore; omega))
  have henable : p.first.enable = true := p.beats.2.2.1
  have hsize := toNat_pktSize (p := p)
  have hfollowing : u.following p.first = ⟨p.place, 1, tempTdataNext p.first⟩ := if_pos henable
  have hcarry : 32 * 1 ≤ p.length → ∀ k < 4,
      p.bytes[32 * 1 - 4 + k]? = some (byteOf (tempTdataNext p.first) k) :=
    fun hle k hk => carry_next Packet.left_inputs hle hk
  rw [hfollowing, clock_first h.1 hin hlast, h.2, knows_first.size]
  by_cases hbig : 31 < (pktSize p.first.sAxis.tuser p.first.inSize).toNat
  · have hfull : Full p := hsuits.room.resolve_left (by omega)
    have hcount : pktSize p.first.sAxis.tuser p.first.inSize = 36 := by
      refine BitVec.eq_of_toNat_eq (hsize.trans ?_)
      unfold lastBytes
      rw [if_pos hfull.1, hfull.2.1]
      rfl
    simp only [hcount]
    exact ⟨⟨le_refl 1, rfl, rfl, rfl, rfl, rfl, hcarry⟩, hmore, rfl, .inr ⟨rfl, rfl, hfull⟩⟩
  · simp only [if_neg hbig]
    exact ⟨⟨le_refl 1, rfl, rfl, rfl, rfl, rfl, hcarry⟩, hmore, rfl, .inl ⟨rfl, by omega⟩⟩

/-- A cycle without a transfer leaves it there. -/
theorem Passing.stays (h : M.Passing u p b) (hin : x.transfers = false) :
    (M.clock x).Passing u p b := by
  rw [clock_stays h.ne_extraSlot hin]
  exact ⟨⟨h.begun, h.offset, h.size, h.field, h.came, h.place, h.carry⟩, h.more, h.counter,
    h.state⟩

/-- What is known of a beat of the packet. -/
theorem Passing.beat (h : M.Passing u p b) (hleft : p.Left b (x :: rest)) :
    x.enable = false ∧ x.sAxis.tlast = decide (b + 1 = beatsFor p.length) ∧
      u.following x = ⟨p.place, b + 1, tempTdataNext x⟩ := by
  have henable : x.enable = false :=
    hleft.beats.2.2.1.trans (decide_eq_false (by have := h.begun; omega))
  refine ⟨henable, hleft.beats.2.1, ?_⟩
  unfold Underway.following
  rw [if_neg (by rw [henable]; exact Bool.false_ne_true), h.came, h.place]

/-- A beat that is not the last one brings it one further. -/
theorem Passing.next (h : M.Passing u p b) (hleft : p.Left b (x :: rest)) (hin : x.transfers = true)
    (hmore : b + 1 < beatsFor p.length) : (M.clock x).Passing (u.following x) p (b + 1) := by
  obtain ⟨-, hlast, hfollowing⟩ := h.beat hleft
  rw [decide_eq_false (by omega)] at hlast
  rw [hfollowing, clock_passes (h.state.imp And.left And.left) hin hlast]
  refine ⟨⟨Nat.le_add_left _ _, h.offset, h.size, h.field, rfl, rfl,
    fun hle k hk => carry_next hleft hle hk⟩, hmore, ?_, h.state⟩
  change M.counter + 32 = 32 * ((b + 1 : ℕ) : ℤ)
  rw [h.counter]
  omega

/-- The last beat ends the packet, or fills the extra slot. -/
theorem Passing.last (h : M.Passing u p b) (hleft : p.Left b (x :: rest)) (hin : x.transfers = true)
    (hend : b + 1 = beatsFor p.length) :
    ((M.clock x).AfterReset ∧ lastBytes p.length + p.count ≤ 31) ∨
      (M.clock x).InSlot (u.following x) p := by
  obtain ⟨-, hlast, hfollowing⟩ := h.beat hleft
  rw [decide_eq_true hend] at hlast
  rcases h.state with ⟨hs, hroom⟩ | ⟨hs, hcount, hfull⟩
  · rw [clock_ends hs hin hlast]
    exact .inl ⟨⟨rfl, rfl⟩, hroom⟩
  · rw [hfollowing, clock_fills hs hin hlast]
    exact .inr ⟨⟨hend ▸ Nat.le_add_left _ _, h.offset, h.size, h.field, hend, rfl,
      fun hle k hk => hend ▸ carry_next hleft (hend ▸ hle) hk⟩, rfl, rfl, hcount, hfull⟩

/-- The extra slot waits. -/
theorem InSlot.stays (h : M.InSlot u p) (hready : x.mAxisTready = false) :
    (M.clock x).InSlot u p := by
  rw [clock_extraSlot h.state, hready]
  exact ⟨⟨h.begun, h.offset, h.size, h.field, h.came, h.place, h.carry⟩, rfl, rfl, h.byteCount,
    h.full⟩

/-- **Once it has left, the next packet can come.** -/
theorem InSlot.ends (h : M.InSlot u p) (hready : x.mAxisTready = true) :
    (M.clock x).AfterReset := by
  rw [clock_extraSlot h.state, hready]
  exact ⟨rfl, rfl⟩

/-! ## The beats that leave -/

/-- The length with the field's bytes. -/
theorem toNat_announced (hle : p.length + p.count < 65536) :
    (if p.first.inSize = 0b01 then p.first.sAxis.tuser.extractLsb' 0 16 + 1
      else if p.first.inSize = 0b10 then p.first.sAxis.tuser.extractLsb' 0 16 + 2
      else if p.first.inSize = 0b11 then p.first.sAxis.tuser.extractLsb' 0 16 + 4
      else p.first.sAxis.tuser.extractLsb' 0 16).toNat = p.length + p.count := by
  have hlen : (p.first.sAxis.tuser.extractLsb' 0 16).toNat = p.length := rfl
  have hcount : sizeBytes p.first.inSize = p.count := rfl
  rcases sizeBytes_cases p.first.inSize with ⟨hs, hn⟩ | ⟨hs, hn⟩ | ⟨hs, hn⟩ | ⟨hs, hn⟩
  · rw [if_pos hs, BitVec.toNat_add, hlen, ← hcount, hn]
    exact Nat.mod_eq_of_lt (by rw [← hcount, hn] at hle; exact hle)
  · rw [if_neg (by rw [hs]; decide), if_pos hs, BitVec.toNat_add, hlen, ← hcount, hn]
    exact Nat.mod_eq_of_lt (by rw [← hcount, hn] at hle; exact hle)
  · rw [if_neg (by rw [hs]; decide), if_neg (by rw [hs]; decide), if_pos hs, BitVec.toNat_add,
      hlen, ← hcount, hn]
    exact Nat.mod_eq_of_lt (by rw [← hcount, hn] at hle; exact hle)
  · exact absurd hs p.size

/-- **The first beat** announces the new length. -/
theorem beatOut_first (h : M.AfterReset) (hsuits : p.Suits) : p.BeatOut 0 (M.mAxis p.first) := by
  have htwo : 33 ≤ p.length := p.two
  have hle : p.length < 65536 := (p.first.sAxis.tuser.extractLsb' 0 16).isLt
  have hlast : p.first.sAxis.tlast = false :=
    p.beats.2.1.trans (decide_eq_false (by unfold Packet.length at htwo; unfold beatsFor; omega))
  have hne : M.state ≠ .extraSlot := by
    rw [h.1]
    exact fun h => by cases h
  have hroom := hsuits.room
  rw [lastBytes_eq] at hroom
  refine ⟨?_, fun _ => ?_, ?_, fun i hi hlt => ?_⟩
  · change M.tlast p.first = _
    unfold tlast
    rw [if_neg (by rw [h.1]; exact fun h => by cases h), if_neg hne, hlast]
    exact (decide_eq_false (by unfold beatsFor; omega)).symm
  · change ((M.tuser p.first).extractLsb' 0 16).toNat = _
    unfold tuser
    rw [BitVec.extractLsb'_append_eq_right]
    unfold lengthField
    rw [if_neg (fun hs => hs.1 h.1), if_neg hne, knows_first.size]
    exact toNat_announced (by omega)
  · change M.tkeep p.first = _
    unfold tkeep
    rw [if_pos ⟨hlast, hne⟩, keepBits_of_ge (by omega)]
  · exact tdata_of_knows knows_first h.2 hne hsuits Packet.left_inputs
      (fun hneg => absurd hneg (by omega)) hi hlt

/-- The keep bits of a packet's last beat when nothing is left over. -/
theorem tkeep_of_ends (hknows : M.Knows p x) (hstate : M.state = .waitEop)
    (hlast : x.sAxis.tlast = true) {m : ℕ} (hkeep : x.sAxis.tkeep = keepBits m) :
    M.tkeep x = keepBits (m + p.count) := by
  have hcount : sizeBytes p.first.inSize = p.count := rfl
  unfold tkeep
  rw [if_neg (fun h => by rw [hlast] at h; cases h.1), hknows.size, hkeep]
  rcases sizeBytes_cases p.first.inSize with ⟨hs, hn⟩ | ⟨hs, hn⟩ | ⟨hs, hn⟩ | ⟨hs, hn⟩
  · rw [if_pos ⟨hs, hlast, hstate⟩, ← hcount, hn]
    exact BitVec.eq_of_getLsbD_eq fun i hi => getLsbD_shifted (n := 1) (k := 31) rfl hi
  · rw [if_neg (fun h => by rw [hs] at h; exact absurd h.1 (by decide)),
      if_pos ⟨hs, hlast, hstate⟩, ← hcount, hn]
    exact BitVec.eq_of_getLsbD_eq fun i hi => getLsbD_shifted (n := 2) (k := 30) rfl hi
  · rw [if_neg (fun h => by rw [hs] at h; exact absurd h.1 (by decide)),
      if_neg (fun h => by rw [hs] at h; exact absurd h.1 (by decide)),
      if_pos ⟨hs, hlast, hstate⟩, ← hcount, hn]
    exact BitVec.eq_of_getLsbD_eq fun i hi => getLsbD_shifted (n := 4) (k := 28) rfl hi
  · exact absurd hs p.size

/-- **A later beat.** -/
theorem Passing.beatOut (h : M.Passing u p b) (hsuits : p.Suits) (hleft : p.Left b (x :: rest))
    (hkept : M.CarryKept u) : p.BeatOut b (M.mAxis x) := by
  obtain ⟨henable, hlast, -⟩ := h.beat hleft
  have hbegun := h.begun
  have hmore : b < (p.length + 31) / 32 := h.more
  have hroom := hsuits.room
  rw [lastBytes_eq] at hroom
  have hcarry : (p.place : ℤ) - 32 * b < 0 → ∀ k < 4,
      p.bytes[32 * b - 4 + k]? = some (byteOf M.tempTdata k) := fun hneg k hk => by
    rcases hkept with hidle | hbefore | htemp
    · exact absurd hidle h.ne_idle
    · rw [h.came, h.place] at hbefore
      omega
    · rw [htemp]
      exact h.carry (by omega) k hk
  refine ⟨?_, fun hzero => absurd hzero (by omega), ?_, fun i hi hlt =>
    tdata_of_knows (h.knows henable) h.counter h.ne_extraSlot hsuits hleft hcarry hi hlt⟩
  · change M.tlast x = _
    unfold tlast
    rcases h.state with ⟨hs, hone⟩ | ⟨hs, -, hfull⟩
    · rw [lastBytes_eq] at hone
      rw [hs, if_neg (fun h => by cases h), if_neg (fun h => by cases h), hlast]
      exact decide_eq_decide.mpr (by unfold beatsFor; omega)
    · rw [hs, if_pos rfl]
      have := hfull.1
      have := hfull.2.1
      exact (decide_eq_false (by unfold beatsFor; omega)).symm
  · change M.tkeep x = _
    by_cases hend : b + 1 = beatsFor p.length
    · rw [decide_eq_true hend] at hlast
      unfold beatsFor at hend
      rcases h.state with ⟨hs, -⟩ | ⟨hs, -, hfull⟩
      · rw [tkeep_of_ends (h.knows henable) hs hlast hleft.beats.1]
        exact congrArg keepBits (by omega)
      · have := hfull.1
        unfold tkeep
        simp only [hlast, hs, reduceCtorEq, and_false, false_and, if_false, hleft.beats.1]
        rw [keepBits_of_ge (by omega), keepBits_of_ge (by omega)]
    · rw [decide_eq_false hend] at hlast
      unfold beatsFor at hend
      unfold tkeep
      rw [if_pos ⟨hlast, h.ne_extraSlot⟩, keepBits_of_ge (by omega)]

/-- **The extra slot** has the four bytes that are carried. -/
theorem InSlot.beatOut (h : M.InSlot u p) (hkept : M.CarryKept u) :
    p.BeatOut (beatsFor p.length) (M.mAxis x) := by
  obtain ⟨hmod, hcount, hplace⟩ := h.full
  have hbeats : 32 * beatsFor p.length = p.length := by
    unfold beatsFor
    omega
  have hbegun := h.begun
  have hcarry : M.tempTdata = u.carry := by
    rcases hkept with hidle | hbefore | htemp
    · rw [h.state] at hidle
      cases hidle
    · rw [h.came, h.place] at hbefore
      omega
    · exact htemp
  refine ⟨?_, fun hzero => absurd hzero (by omega), ?_, fun i hi hlt => ?_⟩
  · change M.tlast x = _
    unfold tlast
    rw [h.state, if_neg (fun h => by cases h), if_pos rfl]
    exact (decide_eq_true (by unfold beatsFor; omega)).symm
  · change M.tkeep x = _
    unfold tkeep
    rw [hbeats, hcount, Nat.add_sub_cancel_left]
    simp only [h.state, h.byteCount, ne_eq, not_true_eq_false, reduceCtorEq, and_false, and_true,
      if_false]
    rfl
  · have hi4 : i < 4 := by omega
    change _ = some (byteOf (M.tdata x) i)
    unfold tdata
    rw [if_pos h.state, h.byteCount, hcarry]
    change _ = some (byteOf (0#224 ++ u.carry) i)
    rw [byteOf_append _ _ (k := 4) rfl, if_pos hi4, ← h.carry (by omega) i hi4]
    exact Packet.result_behind (by omega) (by omega)

end Within

end AddField

end Hw

end FlowBlaze
