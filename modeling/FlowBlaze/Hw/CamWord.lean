import FlowBlaze.Common.BitVectors
/-!
# A word of the CAM — `cam_mem_srl16_block_word.vhd`

Two bits of a word, with their mask bits, are one shift register of sixteen
places: the place of a pattern of two bits says whether the pattern matches.
The patterns are encoded one bit each, so that a search with masked bits
asks for several at once. The carry chain goes through the registers of a
word that match, and stops at the first that does not.

A register is written in sixteen turns, by counting down, or comes from the
word of a file. `StandsFor` says what a word matches; both ways end there.

`srl16e` and `muxcy` are primitives of the FPGA. `C_TERNARY_MODE` is the
standard one, as in the core.
-/

namespace FlowBlaze

namespace Hw

open Common

/-! ## The primitives -/

/-- `srl16e`: with `CE`, the bit goes in at place 0. -/
def srl16e (content : BitVec 16) (ce d : Bool) : BitVec 16 :=
  if ce then content.shiftConcat d else content

/-- Its output: the place at an address. -/
def srl16eQ (content : BitVec 16) (a : BitVec 4) : Bool := content.getLsbD a.toNat

/-- `muxcy`. -/
def muxcy (s ci di : Bool) : Bool := if s then ci else di

/-! ## The encoding of two bits -/

/-- `synth_ternary_compare`: a bit that one of the masks has does not
matter. -/
def synthTernaryCompare {n : ℕ} (maska dataa maskb datab : BitVec n) : Bool :=
  ~~~(maska ||| maskb) &&& (dataa ^^^ datab) == 0

/-- `cam_input_ternary_ternenc`: which of the four patterns match. -/
def ternenc (din dataMask : BitVec 2) : BitVec 4 :=
  BitVec.ofBool (synthTernaryCompare dataMask din 0b00 0b00) ++
    BitVec.ofBool (synthTernaryCompare dataMask din 0b00 0b01) ++
    BitVec.ofBool (synthTernaryCompare dataMask din 0b00 0b10) ++
    BitVec.ofBool (synthTernaryCompare dataMask din 0b00 0b11)

/-- `cam_input_ternary`, by its groups of four bits. Behind the end of the
data there are zeros. -/
def inputTernary {n : ℕ} (din dataMask : BitVec n) (t : ℕ) : BitVec 4 :=
  ternenc (din.extractLsb' (2 * t) 2) (dataMask.extractLsb' (2 * t) 2)

/-- `cam_mem_srl16_ternwrcomp`. -/
def ternwrcomp (wrCount wrData : BitVec 4) : Bool :=
  wrCount.getLsbD 3 && wrData.getLsbD 3 || wrCount.getLsbD 2 && wrData.getLsbD 2 ||
    wrCount.getLsbD 1 && wrData.getLsbD 1 || wrCount.getLsbD 0 && wrData.getLsbD 0

/-! ## The carry chain -/

/-- `roundup_to_multiple`. -/
def roundupToMultiple (dataValue multipleof : ℕ) : ℕ :=
  multipleof * (if dataValue % multipleof ≠ 0 then dataValue / multipleof + 1
    else dataValue / multipleof)

/-- `C_SRL16_SRLS_PER_WORD`. -/
def srlsPerWord (n : ℕ) : ℕ := roundupToMultiple (roundupToMultiple (n * 2) 4) 4 / 4

/-- **`cam_mem_srl16_block_word`**: whether the word matches, with the words
of its registers. A word that is being written does not. -/
def wordMatch (n : ℕ) (content : ℕ → BitVec 16) (we : Bool) (rdData : ℕ → BitVec 4) : Bool :=
  (List.range (srlsPerWord n)).foldl
    (fun carry t => muxcy (srl16eQ (content t) (rdData t)) carry false) (!we)

/-! ## Words from a file -/

/-- The values of a bit in the file. -/
inductive StdLogic
  | u
  | x
  | zero
  | one
deriving DecidableEq, Repr

/-- Four bits for a register: two of the mask and two of the data. -/
structure InitData where
  d3 : StdLogic
  d2 : StdLogic
  d1 : StdLogic
  d0 : StdLogic
deriving DecidableEq, Repr

/-- The bit of the mask for a bit of the file. -/
def StdLogic.mask : StdLogic → StdLogic
  | u => u
  | x => one
  | _ => zero

/-- And the bit of the data. -/
def StdLogic.data : StdLogic → StdLogic
  | u => u
  | x => zero
  | b => b

/-- A bit that is not undefined. -/
def StdLogic.isOne : StdLogic → Bool
  | one => true
  | _ => false

/-- `word_config`: what a word of the file is for a register. The last bit of
a word of odd length is laid out in another way. -/
def wordConfig (word : ℕ → StdLogic) (oldLength t : ℕ) : InitData :=
  let i := 2 * t
  if i + 1 = oldLength then ⟨.zero, .zero, (word i).mask, (word i).data⟩
  else ⟨(word (i + 1)).mask, (word i).mask, (word (i + 1)).data, (word i).data⟩

/-- `init_decode`. -/
def initDecode (data : InitData) : BitVec 16 :=
  if data.d3 = .u ∨ data.d2 = .u ∨ data.d1 = .u ∨ data.d0 = .u then 0
  else
    let d3 := data.d3.isOne
    let d2 := data.d2.isOne
    let d1 := data.d1.isOne
    let d0 := data.d0.isOne
    let a := !d1 && !d0 || d3 && d2 || !d1 && d2 || !d0 && d3
    let b := !d1 && d0 || d3 && d2 || !d1 && d2 || d0 && d3
    let c := d1 && !d0 || d3 && d2 || d1 && d2 || !d0 && d3
    let d := d1 && d0 || d3 && d2 || d1 && d2 || d0 && d3
    vectorOf (fun i =>
      let count := BitVec.ofNat 4 i
      count.getLsbD 3 && a || count.getLsbD 2 && b || count.getLsbD 1 && c ||
        count.getLsbD 0 && d) 16

/-! ## What a word matches -/

variable {n : ℕ} {content : ℕ → BitVec 16}

/-- Bit by bit. -/
theorem synthTernaryCompare_iff (maska dataa maskb datab : BitVec n) :
    synthTernaryCompare maska dataa maskb datab = true ↔
      ∀ b < n, maska.getLsbD b = true ∨ maskb.getLsbD b = true ∨
        dataa.getLsbD b = datab.getLsbD b := by
  have hbit : ∀ b < n, (~~~(maska ||| maskb) &&& (dataa ^^^ datab)).getLsbD b = false ↔
      maska.getLsbD b = true ∨ maskb.getLsbD b = true ∨ dataa.getLsbD b = datab.getLsbD b := by
    intro b hb
    rw [BitVec.getLsbD_and, BitVec.getLsbD_not, BitVec.getLsbD_or, BitVec.getLsbD_xor,
      decide_eq_true hb]
    cases maska.getLsbD b <;> cases maskb.getLsbD b <;> cases dataa.getLsbD b <;>
      cases datab.getLsbD b <;> decide
  unfold synthTernaryCompare
  rw [beq_iff_eq]
  constructor
  · intro h b hb
    rw [← hbit b hb, h]
    exact BitVec.getLsbD_zero
  · intro h
    refine BitVec.eq_of_getLsbD_eq fun b hb => ?_
    rw [(hbit b hb).mpr (h b hb)]
    exact BitVec.getLsbD_zero.symm

/-- Two bits for every register. -/
theorem srlsPerWord_eq (n : ℕ) : srlsPerWord n = (n + 1) / 2 := by
  unfold srlsPerWord roundupToMultiple
  split <;> split <;> omega

/-- **Words agree** when they do in every group of two bits. -/
theorem synthTernaryCompare_groups (maska dataa maskb datab : BitVec n) :
    synthTernaryCompare maska dataa maskb datab = true ↔ ∀ t < srlsPerWord n,
      synthTernaryCompare (maska.extractLsb' (2 * t) 2) (dataa.extractLsb' (2 * t) 2)
        (maskb.extractLsb' (2 * t) 2) (datab.extractLsb' (2 * t) 2) = true := by
  have hget : ∀ (x : BitVec n) t k, k < 2 →
      (x.extractLsb' (2 * t) 2).getLsbD k = x.getLsbD (2 * t + k) := fun x t k hk => by
    rw [BitVec.getLsbD_extractLsb', decide_eq_true hk, Bool.true_and]
  rw [synthTernaryCompare_iff, srlsPerWord_eq]
  constructor
  · intro h t _
    rw [synthTernaryCompare_iff]
    intro k hk
    rw [hget _ t k hk, hget _ t k hk, hget _ t k hk, hget _ t k hk]
    by_cases hn : 2 * t + k < n
    · exact h _ hn
    · refine .inr (.inr ?_)
      rw [dataa.getLsbD_of_ge _ (by omega), datab.getLsbD_of_ge _ (by omega)]
  · intro h b hb
    have hgroup := (synthTernaryCompare_iff _ _ _ _).mp (h (b / 2) (by omega)) (b % 2)
      (Nat.mod_lt b (by decide))
    rwa [hget _ _ _ (Nat.mod_lt b (by decide)), hget _ _ _ (Nat.mod_lt b (by decide)),
      hget _ _ _ (Nat.mod_lt b (by decide)), hget _ _ _ (Nat.mod_lt b (by decide)),
      Nat.div_add_mod] at hgroup

/-- The chain reaches its end when every register matches. -/
theorem wordMatch_iff {we : Bool} {rdData : ℕ → BitVec 4} :
    wordMatch n content we rdData = true ↔
      we = false ∧ ∀ t < srlsPerWord n, srl16eQ (content t) (rdData t) = true := by
  unfold wordMatch
  generalize srlsPerWord n = m
  induction m with
  | zero => simp
  | succ m ih =>
    rw [List.range_succ, List.foldl_append, List.foldl_cons, List.foldl_nil, muxcy]
    cases hq : srl16eQ (content m) (rdData m) with
    | true =>
      rw [if_pos rfl, ih, Nat.forall_lt_succ_right, and_iff_left hq]
    | false =>
      rw [if_neg Bool.false_ne_true, Nat.forall_lt_succ_right, hq]
      simp

/-- **Patterns meet** when what is stored and what is searched for agree on
the bits that no mask has. -/
theorem ternwrcomp_ternenc (din dataMask cmpDin cmpDataMask : BitVec 2) :
    ternwrcomp (ternenc cmpDin cmpDataMask) (ternenc din dataMask) =
      synthTernaryCompare dataMask din cmpDataMask cmpDin := by
  revert din dataMask cmpDin cmpDataMask
  decide

/-- An entry: its data and its mask. -/
abbrev CamEntry (n : ℕ) := BitVec n × BitVec n

/-- An entry matches a search. -/
def CamEntry.isMatch (entry : CamEntry n) (cmpDin cmpDataMask : BitVec n) : Bool :=
  synthTernaryCompare entry.2 entry.1 cmpDataMask cmpDin

/-- **The registers stand for an entry**: they match what it matches. Without
an entry they match nothing. -/
def StandsFor (content : ℕ → BitVec 16) (entry : Option (CamEntry n)) : Prop :=
  ∀ cmpDin cmpDataMask, wordMatch n content false (inputTernary cmpDin cmpDataMask) =
    entry.any fun e => e.isMatch cmpDin cmpDataMask

/-! ## A word that has been written -/

/-- **After some turns** of a write, the places up to their number hold what
was counted. -/
def Shifted (content : BitVec 16) (wrData : BitVec 4) (turns : ℕ) : Prop :=
  ∀ a < turns, content.getLsbD a = ternwrcomp (BitVec.ofNat 4 (16 - turns + a)) wrData

theorem shifted_zero (content : BitVec 16) (wrData : BitVec 4) : Shifted content wrData 0 :=
  fun a ha => absurd ha (Nat.not_lt_zero a)

/-- One turn. -/
theorem Shifted.shift {content : BitVec 16} {wrData : BitVec 4} {turns : ℕ}
    (h : Shifted content wrData turns) (hturns : turns < 16) :
    Shifted (srl16e content true (ternwrcomp (BitVec.ofNat 4 (15 - turns)) wrData)) wrData
      (turns + 1) := by
  intro a ha
  rw [srl16e, if_pos rfl, BitVec.getLsbD_shiftConcat, decide_eq_true (by omega), Bool.true_and]
  cases a with
  | zero =>
    rw [if_pos rfl]
    congr 2
    omega
  | succ a =>
    rw [if_neg (Nat.succ_ne_zero a), Nat.add_sub_cancel, h a (by omega)]
    congr 2
    omega

/-- **All turns** leave the entry. -/
theorem standsFor_of_shifted {din dataMask : BitVec n}
    (h : ∀ t < srlsPerWord n, Shifted (content t) (inputTernary din dataMask t) 16) :
    StandsFor content (some (din, dataMask)) := by
  intro cmpDin cmpDataMask
  rw [Option.any_some, CamEntry.isMatch, Bool.eq_iff_iff, wordMatch_iff,
    synthTernaryCompare_groups, and_iff_right rfl]
  refine forall_congr' fun t => forall_congr' fun ht => ?_
  have hplace := h t ht (inputTernary cmpDin cmpDataMask t).toNat (BitVec.isLt _)
  rw [Nat.sub_self, Nat.zero_add, BitVec.ofNat_toNat, BitVec.setWidth_eq] at hplace
  rw [srl16eQ, hplace, inputTernary, inputTernary, ternwrcomp_ternenc]

/-! ## A word of the file -/

/-- The entry of a word: a bit X does not matter, and a word with a bit U
matches nothing. -/
def fileEntry (n : ℕ) (word : ℕ → StdLogic) : Option (CamEntry n) :=
  if ∃ b < n, word b = .u then none
  else some (vectorOf (fun b => (word b).data.isOne) n, vectorOf (fun b => (word b).mask.isOne) n)

/-- A bit that is not undefined has a mask and data that are not. -/
theorem StdLogic.defined {b : StdLogic} (h : b ≠ .u) : b.mask ≠ .u ∧ b.data ≠ .u := by
  cases b with
  | u => exact absurd rfl h
  | x | zero | one => exact ⟨by decide, by decide⟩

/-- A register is decoded as it would have been written. -/
theorem srl16eQ_initDecode {d : InitData} (hd : d.d3 ≠ .u ∧ d.d2 ≠ .u ∧ d.d1 ≠ .u ∧ d.d0 ≠ .u)
    (a : BitVec 4) : srl16eQ (initDecode d) a = ternwrcomp a
      (ternenc (BitVec.ofBool d.d1.isOne ++ BitVec.ofBool d.d0.isOne)
        (BitVec.ofBool d.d3.isOne ++ BitVec.ofBool d.d2.isOne)) := by
  obtain ⟨h3, h2, h1, h0⟩ := hd
  rw [initDecode, if_neg (by simp [h3, h2, h1, h0]), srl16eQ, getLsbD_vectorOf a.isLt,
    BitVec.ofNat_toNat, BitVec.setWidth_eq]
  generalize d.d3.isOne = m1
  generalize d.d2.isOne = m0
  generalize d.d1.isOne = d1
  generalize d.d0.isOne = d0
  revert a m1 m0 d1 d0
  decide

/-- Two bits of a vector. -/
theorem extractLsb'_vectorOf {bits : ℕ → Bool} {t : ℕ} (ht : 2 * t + 1 < n) :
    (vectorOf bits n).extractLsb' (2 * t) 2 =
      BitVec.ofBool (bits (2 * t + 1)) ++ BitVec.ofBool (bits (2 * t)) := by
  refine BitVec.eq_of_getLsbD_eq fun k hk => ?_
  rw [BitVec.getLsbD_extractLsb', decide_eq_true hk, Bool.true_and, getLsbD_vectorOf (by omega),
    BitVec.getLsbD_append]
  obtain rfl | rfl : k = 0 ∨ k = 1 := by omega
  · rw [if_pos (by decide), Nat.add_zero]
    simp
  · rw [if_neg (by decide)]
    simp

/-- **The words of the file**, of even length, stand for their entries. -/
theorem standsFor_fileEntry (heven : n % 2 = 0) (word : ℕ → StdLogic) :
    StandsFor (fun t => initDecode (wordConfig word n t)) (fileEntry n word) := by
  intro cmpDin cmpDataMask
  have hconfig : ∀ t, wordConfig word n t =
      ⟨(word (2 * t + 1)).mask, (word (2 * t)).mask, (word (2 * t + 1)).data,
        (word (2 * t)).data⟩ := fun t => if_neg (by omega)
  by_cases hu : ∃ b < n, word b = .u
  · -- the register of an undefined bit matches nothing
    obtain ⟨b, hb, hword⟩ := hu
    rw [fileEntry, if_pos ⟨b, hb, hword⟩, Option.any_none, ← Bool.not_eq_true, wordMatch_iff]
    rintro ⟨-, hall⟩
    have hq := hall (b / 2) (by rw [srlsPerWord_eq]; omega)
    have hzero : initDecode (wordConfig word n (b / 2)) = 0 := by
      rw [initDecode, if_pos]
      rw [hconfig]
      obtain h | h : b = 2 * (b / 2) ∨ b = 2 * (b / 2) + 1 := by omega
      · rw [h] at hword
        simp [hword, StdLogic.data]
      · rw [h] at hword
        simp [hword, StdLogic.data]
    rw [hzero, srl16eQ] at hq
    exact Bool.false_ne_true (BitVec.getLsbD_zero.symm.trans hq)
  · have hmask : ∀ b < n, (word b).mask ≠ .u ∧ (word b).data ≠ .u := fun b hb =>
      StdLogic.defined fun h => hu ⟨b, hb, h⟩
    rw [fileEntry, if_neg hu, Option.any_some, CamEntry.isMatch, Bool.eq_iff_iff, wordMatch_iff,
      synthTernaryCompare_groups, and_iff_right rfl]
    refine forall_congr' fun t => forall_congr' fun ht => ?_
    rw [srlsPerWord_eq] at ht
    rw [hconfig, srl16eQ_initDecode ⟨(hmask _ (by omega)).1, (hmask _ (by omega)).1,
      (hmask _ (by omega)).2, (hmask _ (by omega)).2⟩, extractLsb'_vectorOf (by omega),
      extractLsb'_vectorOf (by omega), inputTernary, ternwrcomp_ternenc]

end Hw

end FlowBlaze
