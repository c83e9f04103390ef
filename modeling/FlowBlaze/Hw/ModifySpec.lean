import FlowBlaze.Hw.ModifyField
import Mathlib.Tactic.IntervalCases
/-!
# What is overwritten

A branch is right about a beat if the bytes of the field that lie in it
are overwritten, and no others. Which places are right is read off the
branches: the first byte of a beat is none of them, since there the data
is shifted instead.
-/

namespace FlowBlaze

namespace Hw

open Common

/-! ## Beats -/

/-- The bytes that a size stands for. -/
def sizeBytes (size : BitVec 2) : ℕ :=
  if size = 0b01 then 1 else if size = 0b10 then 2 else if size = 0b11 then 4 else 0

/-- **A byte of a beat** once the field at a place is overwritten: the place
is that of the field's first byte, from the beginning of the beat. -/
def overwritten (r : ℤ) (n : ℕ) (tdata : BitVec 256) (field : BitVec 32) (i : ℕ) : BitVec 8 :=
  if r ≤ i ∧ (i : ℤ) < r + n then byteOf field (i - r).toNat else byteOf tdata i

/-- **Places that are written right**, for each number of bytes. -/
def Fits (n : ℕ) (r : ℤ) : Prop :=
  (n = 1 ∧ 1 ≤ r ∧ r ≤ 30) ∨ (n = 2 ∧ (2 ≤ r ∧ r ≤ 29 ∨ r = 31 ∨ r = -1)) ∨
    (n = 4 ∧ (4 ≤ r ∧ r ≤ 31 ∨ -3 ≤ r ∧ r ≤ -1))

/-- The field has no byte in the beat. -/
def Misses (n : ℕ) (r : ℤ) : Prop := r > 31 ∨ r ≤ -n

section Data

variable {r : ℤ} {index n : ℕ} {tdata : BitVec 256} {field : BitVec 32} {size : BitVec 2}

theorem overwritten_of_misses (h : Misses n r) {i : ℕ} (hi : i < 32) :
    overwritten r n tdata field i = byteOf tdata i := by
  unfold Misses at h
  exact if_neg (by omega)

/-- The bytes of the field, in the beat that it lies in. -/
theorem overwritten_nat (i : ℕ) :
    overwritten index n tdata field i =
      if index ≤ i ∧ i < index + n then byteOf field (i - index) else byteOf tdata i := by
  unfold overwritten
  by_cases h : index ≤ i ∧ i < index + n
  · rw [if_pos h, if_pos (by omega)]
    exact congrArg (byteOf field) (by omega)
  · rw [if_neg h, if_neg (by omega)]

/-- **A loop over the upper bytes** writes a field that lies in them. -/
theorem byteOf_loop {low : List ℕ} {g : ℕ → BitVec 8} {i : ℕ} (hlow : ∀ k ∈ low, k < 32)
    (hn : n ≤ index) (hindex : index < 32)
    (hg : ∀ k, g k = overwritten index n tdata field k) (hi : i < 32) :
    byteOf (assignBytes (assignBytes tdata low (byteOf tdata)) (List.range' n (32 - n)) g) i =
      overwritten index n tdata field i := by
  have hrange : ∀ k ∈ List.range' n (32 - n), 8 * k + 8 ≤ 256 := fun k hk => by
    have := (List.mem_range'_1.mp hk).2
    omega
  rw [byteOf_assignBytes _ _ hrange, byteOf_assignBytes _ _ fun k hk => by
    have := hlow k hk
    omega]
  by_cases hmem : i ∈ List.range' n (32 - n)
  · rw [if_pos hmem, hg]
  · have hlt : i < n := by
      by_contra hge
      exact hmem (List.mem_range'_1.mpr (by omega))
    rw [if_neg hmem, ite_self, overwritten_nat, if_neg (by omega)]

/-- One byte. -/
theorem byteOf_modifyByte (hindex : 1 ≤ index ∧ index ≤ 30) {i : ℕ} (hi : i < 32) :
    byteOf (modifyByte index index tdata field) i = overwritten index 1 tdata field i := by
  unfold modifyByte
  rw [if_neg (by omega), if_neg (by omega), if_pos (by omega)]
  refine byteOf_loop (by decide) hindex.1 (by omega) (fun k => ?_) hi
  rw [overwritten_nat]
  by_cases h : index ≤ k ∧ k < index + 1
  · obtain rfl : k = index := by omega
    simp
  · rw [if_neg h]
    split_ifs <;> first | rfl | omega

/-- Two bytes, in one beat. -/
theorem byteOf_modifyTwo_loop (hindex : 2 ≤ index ∧ index ≤ 29) {i : ℕ} (hi : i < 32) :
    byteOf (modifyTwo index index tdata field) i = overwritten index 2 tdata field i := by
  unfold modifyTwo
  rw [if_neg (by omega), if_neg (by omega), if_pos (by omega)]
  refine byteOf_loop (by decide) hindex.1 (by omega) (fun k => ?_) hi
  rw [overwritten_nat]
  by_cases h : index ≤ k ∧ k < index + 2
  · obtain ⟨j, rfl⟩ := Nat.exists_eq_add_of_le h.1
    have hj : j < 2 := by omega
    rw [if_pos h, Nat.add_sub_cancel_left]
    interval_cases j <;> simp
  · rw [if_neg h]
    split_ifs <;> first | rfl | omega

/-- A field that goes on past the end of the beat, or up to it. -/
theorem byteOf_upper {l m : ℕ} (k : ℕ) (hl : l = 8 * k) (hm : m + l = 256) (hk : k + n ≥ 32)
    {i : ℕ} (hi : i < 32) :
    byteOf (field.extractLsb' 0 m ++ tdata.extractLsb' 0 l) i = overwritten k n tdata field i := by
  rw [byteOf_slices (p := 0) (q := 0) field tdata rfl rfl hl (by omega), overwritten_nat]
  by_cases h : i < k
  · rw [if_pos h, if_neg (by omega), Nat.zero_add]
  · rw [if_neg h, if_pos (by omega), Nat.zero_add]

/-- A field that began in the beat before. -/
theorem byteOf_lower {s t l m : ℕ} (k p : ℕ) (hs : s = 8 * k) (ht : t = 8 * p) (hl : l = 8 * k)
    (hm : m + l = 256) (hn : n = p + k) {i : ℕ} (hi : i < 32) :
    byteOf (tdata.extractLsb' s m ++ field.extractLsb' t l) i =
      overwritten (-(p : ℤ)) n tdata field i := by
  rw [byteOf_slices tdata field hs ht hl (by omega)]
  unfold overwritten
  by_cases h : i < k
  · rw [if_pos h, if_pos (by omega)]
    exact congrArg (byteOf field) (by omega)
  · rw [if_neg h, if_neg (by omega)]
    exact congrArg (byteOf tdata) (by omega)

/-- Two bytes, one of them in the beat. -/
theorem byteOf_modifyTwo_split (hr : r = 31 ∨ r = -1) {i : ℕ} (hi : i < 32) :
    byteOf (modifyTwo r index tdata field) i = overwritten r 2 tdata field i := by
  rcases hr with rfl | rfl
  · exact byteOf_upper 31 rfl rfl (by omega) hi
  · exact byteOf_lower 1 1 rfl rfl rfl rfl rfl hi

/-- Four bytes, all in one beat but for the last places. -/
theorem byteOf_modifyFour_loop (hindex : 4 ≤ index ∧ index ≤ 27) {i : ℕ} (hi : i < 32) :
    byteOf (modifyFour index index tdata field) i = overwritten index 4 tdata field i := by
  unfold modifyFour
  rw [if_pos (by omega)]
  refine byteOf_loop (by decide) hindex.1 (by omega) (fun k => ?_) hi
  rw [overwritten_nat]
  by_cases h : index ≤ k ∧ k < index + 4
  · obtain ⟨j, rfl⟩ := Nat.exists_eq_add_of_le h.1
    have hj : j < 4 := by omega
    rw [if_pos h, Nat.add_sub_cancel_left]
    interval_cases j <;> simp
  · rw [if_neg h]
    split_ifs <;> first | rfl | omega

/-- Four bytes, some of them in another beat or right at the end. -/
theorem byteOf_modifyFour_split (hr : 28 ≤ r ∧ r ≤ 31 ∨ -3 ≤ r ∧ r ≤ -1) {i : ℕ} (hi : i < 32) :
    byteOf (modifyFour r index tdata field) i = overwritten r 4 tdata field i := by
  have hcases : r = 28 ∨ r = 29 ∨ r = 30 ∨ r = 31 ∨ r = -1 ∨ r = -2 ∨ r = -3 := by omega
  rcases hcases with rfl | rfl | rfl | rfl | rfl | rfl | rfl
  · have hwhole : field.extractLsb' 0 32 = field := BitVec.extractLsb'_eq_self
    have h : _ = overwritten 28 4 tdata field i :=
      byteOf_upper (l := 224) (m := 32) 28 rfl rfl (by omega) hi
    rw [hwhole] at h
    exact h
  · exact byteOf_upper 29 rfl rfl (by omega) hi
  · exact byteOf_upper 30 rfl rfl (by omega) hi
  · exact byteOf_upper 31 rfl rfl (by omega) hi
  · exact byteOf_lower 3 1 rfl rfl rfl rfl rfl hi
  · exact byteOf_lower 2 2 rfl rfl rfl rfl rfl hi
  · exact byteOf_lower 1 3 rfl rfl rfl rfl rfl hi

theorem sizeBytes_cases (size : BitVec 2) :
    (size = 0b01 ∧ sizeBytes size = 1) ∨ (size = 0b10 ∧ sizeBytes size = 2) ∨
      (size = 0b11 ∧ sizeBytes size = 4) ∨ (size = 0b00 ∧ sizeBytes size = 0) := by
  revert size
  decide

/-- **A place that fits is written right.** -/
theorem byteOf_modifyData (hfits : Fits (sizeBytes size) r) (hindex : 0 ≤ r → (index : ℤ) = r)
    {i : ℕ} (hi : i < 32) :
    byteOf (modifyData size r index tdata field) i =
      overwritten r (sizeBytes size) tdata field i := by
  unfold Fits at hfits
  rcases sizeBytes_cases size with ⟨rfl, hn⟩ | ⟨rfl, hn⟩ | ⟨rfl, hn⟩ | ⟨rfl, hn⟩ <;>
    rw [hn] at hfits ⊢
  · have hr : 1 ≤ r ∧ r ≤ 30 := by omega
    obtain rfl := hindex (by omega)
    exact byteOf_modifyByte (by omega) hi
  · by_cases hloop : 2 ≤ r ∧ r ≤ 29
    · obtain rfl := hindex (by omega)
      exact byteOf_modifyTwo_loop (by omega) hi
    · exact byteOf_modifyTwo_split (by omega) hi
  · by_cases hloop : 4 ≤ r ∧ r ≤ 27
    · obtain rfl := hindex (by omega)
      exact byteOf_modifyFour_loop (by omega) hi
    · exact byteOf_modifyFour_split (by omega) hi
  · omega

/-- **A beat that the field misses** stays as it is. -/
theorem modifyData_of_misses (h : Misses (sizeBytes size) r) :
    modifyData size r index tdata field = tdata := by
  unfold Misses at h
  rcases sizeBytes_cases size with ⟨rfl, hn⟩ | ⟨rfl, hn⟩ | ⟨rfl, hn⟩ | ⟨rfl, -⟩
  · rw [hn] at h
    change modifyByte r index tdata field = tdata
    unfold modifyByte
    rcases h with h | h
    · rw [if_pos h]
    · rw [if_neg (by omega), if_neg (by omega), if_neg (by omega)]
  · rw [hn] at h
    change modifyTwo r index tdata field = tdata
    unfold modifyTwo
    rcases h with h | h
    · rw [if_pos h]
    · rw [if_neg (by omega), if_neg (by omega), if_neg (by omega), if_neg (by omega),
        if_neg (by omega)]
  · rw [hn] at h
    change modifyFour r index tdata field = tdata
    unfold modifyFour
    repeat rw [if_neg (by omega)]
  · rfl

end Data

/-! ## Packets -/

/-- A request for a packet: where the field begins, how long it is, and what
is in it. -/
structure Request where
  offset : ℕ
  bytes : ℕ
  field : BitVec 32

/-- What is presented with a beat. -/
def ModifyInput.request (x : ModifyInput) : Request :=
  ⟨x.inOffset.toNat, sizeBytes x.inSize, x.inField⟩

/-- The packet that a beat is of: with the first one its request is
presented, and a later one has a number. -/
def current (p : Option (Request × ℕ)) (x : ModifyInput) : Request × ℕ := p.getD (x.request, 0)

/-- The packet after a beat, if it has not ended. -/
def following (p : Option (Request × ℕ)) (x : ModifyInput) : Option (Request × ℕ) :=
  if x.sAxis.tlast then none else some ((current p x).1, (current p x).2 + 1)

/-- The place of the field in a beat. -/
def Request.place (q : Request) (beat : ℕ) : ℤ := q.offset - 32 * beat

/-- **A beat leaves with the requested bytes**, as far as they are bytes of
the packet, and is otherwise as it came. -/
structure BeatRight (q : Request) (beat : ℕ) (x y : Axis) : Prop where
  tkeep : y.tkeep = x.tkeep
  tuser : y.tuser = x.tuser
  tlast : y.tlast = x.tlast
  tdata : ∀ i < 32, x.tkeep.getLsbD i = true →
    byteOf y.tdata i = overwritten (q.place beat) q.bytes x.tdata q.field i

/-- **Exactly the requested bytes are overwritten**, packet by packet: of
the beats that came in and of those that left. -/
def Overwrites : Option (Request × ℕ) → List ModifyInput → List Axis → Prop
  | _, [], ys => ys = []
  | _, _ :: _, [] => False
  | p, x :: xs, y :: ys =>
    BeatRight (current p x).1 (current p x).2 x.sAxis y ∧ Overwrites (following p x) xs ys

/-- The operation is presented with the first beat of each packet, and only
there. -/
def Presented : Option (Request × ℕ) → List ModifyInput → Prop
  | _, [] => True
  | p, x :: xs => x.enable = p.isNone ∧ Presented (following p x) xs

/-! ## Runs -/

namespace ModifyField

variable {M : ModifyField} {x : ModifyInput} {xs : List ModifyInput} {p : Option (Request × ℕ)}

/-- What the machine takes the request for: its own, or that presented. -/
def taken (M : ModifyField) (x : ModifyInput) : Request :=
  ⟨(M.offset x).toNat, sizeBytes (M.size x), M.field x⟩

/-- **A beat that is written right**: the field misses it, for the request
and as the machine has it; or the machine has the request and the right
place, and this place fits. -/
def Meets (M : ModifyField) (q : Request) (beat : ℕ) (x : ModifyInput) : Prop :=
  (Misses q.bytes (q.place beat) ∧ Misses (M.taken x).bytes (M.relativeOffset x)) ∨
    ((M.taken x).bytes = q.bytes ∧ (M.taken x).field = q.field ∧
      M.relativeOffset x = q.place beat ∧ Fits q.bytes (q.place beat))

/-- **Every beat of a run is written right.** -/
def AllMeet : ModifyField → Option (Request × ℕ) → List ModifyInput → Prop
  | _, _, [] => True
  | M, p, x :: xs =>
    if x.transfers then
      M.Meets (current p x).1 (current p x).2 x ∧ AllMeet (M.clock x) (following p x) xs
    else AllMeet (M.clock x) p xs

/-- The counter is that of the state. -/
def Counts (M : ModifyField) : Prop :=
  M.counter = match M.state with
    | .idle => 0
    | .waitEop => 32

theorem Counts.clock (h : M.Counts) (x : ModifyInput) : (M.clock x).Counts := by
  unfold Counts ModifyField.clock at *
  cases hstate : M.state with
  | idle =>
    rw [hstate] at h
    cases x.sAxis.tvalid && x.mAxisTready with
    | true => simp [h]
    | false => simp [h, hstate]
  | waitEop =>
    rw [hstate] at h
    cases x.sAxis.tvalid && x.mAxisTready && x.sAxis.tlast with
    | true => simp
    | false => simp [h, hstate]

/-- **What a branch writes into** is the place of the field in the beat. -/
theorem index_eq (h : M.Counts) (hr : 0 ≤ M.relativeOffset x) (hlt : M.relativeOffset x < 32) :
    (M.index x : ℤ) = M.relativeOffset x := by
  have hmod : M.index x = (M.offset x).toNat % 32 := by
    unfold index
    rw [BitVec.extractLsb'_toNat, Nat.shiftRight_zero]
  unfold relativeOffset at *
  unfold Counts at h
  rw [hmod]
  cases hstate : M.state with
  | idle =>
    rw [hstate] at h
    change M.counter = 0 at h
    omega
  | waitEop =>
    rw [hstate] at h
    change M.counter = 32 at h
    omega

/-- **A beat that meets the condition is right.** -/
theorem beatRight_of_meets (h : M.Counts) {q : Request} {beat : ℕ} (hmeets : M.Meets q beat x) :
    BeatRight q beat x.sAxis (M.mAxis x) := by
  refine ⟨rfl, rfl, rfl, fun i hi _ => ?_⟩
  change byteOf (modifyData (M.size x) (M.relativeOffset x) (M.index x) x.sAxis.tdata
    (M.field x)) i = _
  rcases hmeets with ⟨hmisses, htaken⟩ | ⟨hbytes, hfield, hplace, hfits⟩
  · rw [overwritten_of_misses hmisses hi, modifyData_of_misses htaken]
  · change sizeBytes (M.size x) = q.bytes at hbytes
    change M.field x = q.field at hfield
    rw [← hplace, ← hbytes] at hfits ⊢
    rw [← hfield]
    have hlt : M.relativeOffset x < 32 := by
      unfold Fits at hfits
      omega
    exact byteOf_modifyData hfits (fun hr => index_eq h hr hlt) hi

/-- A cycle without a transfer changes nothing. -/
theorem clock_of_not_transfers (h : x.transfers = false) : M.clock x = M := by
  unfold ModifyInput.transfers at h
  unfold clock
  cases M.state with
  | idle => simp only [h, Bool.false_eq_true, if_false]
  | waitEop => simp only [h, Bool.false_and, Bool.false_eq_true, if_false]

/-- **A run whose beats all meet the condition overwrites exactly the
requested bytes**, from any state on that counts right. -/
theorem overwrites_of_counts (h : M.Counts) (hall : M.AllMeet p xs) :
    Overwrites p (xs.filter (·.transfers)) (M.leaves xs) := by
  induction xs generalizing M p with
  | nil => rfl
  | cons x xs ih =>
    unfold AllMeet at hall
    unfold leaves
    cases htransfers : x.transfers with
    | true =>
      rw [htransfers, if_pos rfl] at hall
      rw [if_pos rfl, List.filter_cons_of_pos htransfers]
      exact ⟨beatRight_of_meets h hall.1, ih (h.clock x) hall.2⟩
    | false =>
      rw [htransfers, if_neg Bool.false_ne_true] at hall
      rw [if_neg Bool.false_ne_true, List.filter_cons_of_neg (by simp [htransfers])]
      exact ih (h.clock x) hall

/-- The machine after a reset. -/
def AfterReset (M : ModifyField) : Prop := M.state = .idle ∧ M.counter = 0

/-- **When exactly the requested bytes are overwritten**: in every run after
a reset whose beats all meet the condition. -/
theorem overwrites_of_allMeet (hreset : M.AfterReset) (hall : M.AllMeet none xs) :
    Overwrites none (xs.filter (·.transfers)) (M.leaves xs) :=
  overwrites_of_counts (by unfold Counts; rw [hreset.1]; exact hreset.2) hall

end ModifyField

/-! ## The condition, on packets -/

/-- **A beat where the field is placed right**, of a packet that the machine
has the request of: from the second beat on it measures from there. -/
def PlacedRight (q : Request) (beat : ℕ) : Prop :=
  (Misses q.bytes (q.place beat) ∧ Misses q.bytes (q.place (min beat 1))) ∨
    (q.place (min beat 1) = q.place beat ∧ Fits q.bytes (q.place beat))

/-- Every packet has a second beat, and its field is placed right in all. -/
def AllPlaced : Option (Request × ℕ) → List ModifyInput → Prop
  | _, [] => True
  | p, x :: xs => (p = none → x.sAxis.tlast = false) ∧
      PlacedRight (current p x).1 (current p x).2 ∧ AllPlaced (following p x) xs

namespace ModifyField

variable {M : ModifyField} {x : ModifyInput} {xs : List ModifyInput} {p : Option (Request × ℕ)}

/-- The machine is where the packets are. -/
def InStep (M : ModifyField) : Option (Request × ℕ) → Prop
  | none => M.AfterReset
  | some (q, beat) => M.state = .waitEop ∧ M.counter = 32 ∧ 1 ≤ beat ∧
      ⟨M.regOffset.toNat, sizeBytes M.regSize, M.regField⟩ = q

/-- In step, the machine has the request, and measures from the first beat
or from the second. -/
theorem taken_of_inStep (h : M.InStep p) (henable : x.enable = p.isNone) :
    M.taken x = (current p x).1 ∧
      M.relativeOffset x = (current p x).1.place (min (current p x).2 1) := by
  cases p with
  | none =>
    have htrue : x.enable = true := henable
    unfold taken relativeOffset offset size field
    simp only [htrue, if_true]
    refine ⟨rfl, ?_⟩
    rw [show M.counter = 0 from h.2]
    rfl
  | some qb =>
    obtain ⟨q, beat⟩ := qb
    obtain ⟨-, hcounter, hbeat, rfl⟩ := h
    have hfalse : x.enable = false := henable
    unfold taken relativeOffset offset size field
    simp only [hfalse, Bool.false_eq_true, if_false]
    refine ⟨rfl, ?_⟩
    change _ = (M.regOffset.toNat : ℤ) - 32 * ((min beat 1 : ℕ) : ℤ)
    rw [hcounter, min_eq_right hbeat]
    rfl

/-- **A beat keeps the machine in step**, but for a packet that is no longer
than it. -/
theorem InStep.clock (h : M.InStep p) (henable : x.enable = p.isNone)
    (htransfers : x.transfers = true) (hlast : p = none → x.sAxis.tlast = false) :
    (M.clock x).InStep (following p x) := by
  unfold ModifyInput.transfers at htransfers
  unfold ModifyField.clock following
  cases p with
  | none =>
    rw [h.1, hlast rfl]
    simp only [htransfers, if_true, Bool.false_eq_true, if_false]
    refine ⟨rfl, ?_, Nat.le_add_left _ _, rfl⟩
    rw [h.2]
    rfl
  | some qb =>
    obtain ⟨q, beat⟩ := qb
    obtain ⟨hstate, hcounter, hbeat, hq⟩ := h
    rw [hstate]
    cases hend : x.sAxis.tlast with
    | true =>
      simp only [htransfers, Bool.and_true, if_true]
      exact ⟨rfl, rfl⟩
    | false =>
      simp only [Bool.and_false, Bool.false_eq_true, if_false]
      exact ⟨hstate, hcounter, Nat.le_add_left _ _, hq⟩

/-- **Packets whose fields are placed right meet the condition**, if they
have a second beat. -/
theorem allMeet_of_allPlaced (h : M.InStep p) (hpresented : Presented p (xs.filter (·.transfers)))
    (hplaced : AllPlaced p (xs.filter (·.transfers))) : M.AllMeet p xs := by
  induction xs generalizing M p with
  | nil => trivial
  | cons x xs ih =>
    unfold AllMeet
    cases htransfers : x.transfers with
    | true =>
      rw [List.filter_cons_of_pos htransfers] at hpresented hplaced
      obtain ⟨henable, hpresented⟩ := hpresented
      obtain ⟨hlast, hright, hplaced⟩ := hplaced
      obtain ⟨htaken, hplace⟩ := taken_of_inStep h henable
      rw [if_pos rfl]
      refine ⟨?_, ih (h.clock henable htransfers hlast) hpresented hplaced⟩
      unfold Meets
      rw [htaken, hplace]
      exact hright.imp_right fun hright => ⟨rfl, rfl, hright.1, hright.2⟩
    | false =>
      rw [List.filter_cons_of_neg (by simp [htransfers])] at hpresented hplaced
      rw [if_neg Bool.false_ne_true, clock_of_not_transfers htransfers]
      exact ih h hpresented hplaced

end ModifyField

/-! ## Two runs -/

/-- A beat of this data, all of it kept. -/
def fullBeat (tdata : BitVec 256) (tlast : Bool) : Axis :=
  ⟨tdata, 0, BitVec.allOnes 32, true, tlast⟩

/-- A beat, with an operation that is presented or not. -/
def modifyBeat (tdata : BitVec 256) (tlast enable : Bool) (offset : BitVec 14) (size : BitVec 2)
    (field : BitVec 32) : ModifyInput :=
  ⟨fullBeat tdata tlast, true, offset, size, field, enable⟩

/-- The registers after a reset. -/
def ModifyField.reset : ModifyField := ⟨.idle, 0, 0, 0, 0⟩

/-- A packet of two beats and a stalled cycle, with two bytes overwritten in
the first. -/
theorem overwrites_two :
    ModifyField.reset.AfterReset ∧
      Overwrites none
        ([modifyBeat 7 false true 10 0b10 0xbbaa, { modifyBeat 8 true false 0 0 0 with
          mAxisTready := false }, modifyBeat 8 true false 0 0 0].filter (·.transfers))
        (ModifyField.reset.leaves
          [modifyBeat 7 false true 10 0b10 0xbbaa, { modifyBeat 8 true false 0 0 0 with
            mAxisTready := false }, modifyBeat 8 true false 0 0 0]) := by
  refine ⟨⟨rfl, rfl⟩, ModifyField.overwrites_of_allMeet ⟨rfl, rfl⟩ ?_⟩
  refine ⟨.inr ⟨rfl, rfl, rfl, .inr (.inl ⟨rfl, .inl ⟨by decide, by decide⟩⟩)⟩, ?_⟩
  exact ⟨.inl ⟨.inr (by decide), .inr (by decide)⟩, trivial⟩

/-- **The first byte of a packet** is not overwritten: the data is shifted
to make room for it. -/
theorem not_overwrites :
    Presented none [modifyBeat 1 true true 0 0b01 0xaa] ∧
      ¬Overwrites none [modifyBeat 1 true true 0 0b01 0xaa]
        (ModifyField.reset.leaves [modifyBeat 1 true true 0 0b01 0xaa]) := by
  refine ⟨⟨rfl, trivial⟩, fun h => ?_⟩
  have hbyte := h.1.tdata 1 (by decide) (by decide)
  revert hbyte
  decide

end Hw

end FlowBlaze
